import Mathlib.Algebra.Order.Ring.Nat
import Mathlib.Data.List.Lex
import Mathlib.Data.List.Sort
import Mathlib.Data.Char
import Kirakira.Lib.Exceptions

/-!
# Directory Pages

`list_dir` of `plugins/host_execution/bridge/filesystem.py` lists a directory in pages. A page
ends where its lines and the hint that names its last entry would be too long; the next one begins
behind the name in the hint.

* A name is the list of its code points; a byte that is no UTF-8 is a surrogate, which cannot be
  encoded again.

## Main results

* `fill_spec` — what a page holds, and how long it is with its hint.
* `enumerates_iff` — **every name is listed once** where every name is a text.
-/

namespace Kirakira.DirectoryPages

open Exceptions

/-! ### Texts -/

/-- A name, or another text of code points. -/
abbrev Name := List ℕ

/-- The code points of a text. -/
def codes (text : String) : Name :=
  text.toList.map Char.toNat

/-- A code point that no text has. -/
def isSurrogate (c : ℕ) : Bool :=
  0xD800 ≤ c && c < 0xE000

/-- The bytes of a code point. -/
def utf8Width (c : ℕ) : ℕ :=
  if c < 0x80 then 1 else if c < 0x800 then 2 else if c < 0x10000 then 3 else 4

/-- The bytes of a text. -/
def size (text : Name) : ℕ :=
  (text.map utf8Width).sum

/-- `len(text.encode("utf-8"))`. -/
def encodedLength (text : Name) : Except String ℕ :=
  if text.any isSurrogate then .error "'utf-8' codec can't encode: surrogates not allowed"
  else .ok (size text)

/-- The bytes of a code point in a name on the disk. -/
def diskWidth (c : ℕ) : ℕ :=
  if isSurrogate c then 1 else utf8Width c

/-- The bytes of a name on the disk. -/
def diskSize (name : Name) : ℕ :=
  (name.map diskWidth).sum

/-- `\uXXXX`. -/
def unicodeEscape (c : ℕ) : Name :=
  codes "\\u" ++ [c / 4096 % 16, c / 256 % 16, c / 16 % 16, c % 16].map fun digit =>
    if digit < 10 then 48 + digit else 87 + digit

/-- A code point as `json.dumps(…, ensure_ascii=True)` writes it. -/
def escape (c : ℕ) : Name :=
  if c = 34 ∨ c = 92 then [92, c]
  else if 32 ≤ c ∧ c ≤ 126 then [c]
  else if c = 8 then codes "\\b"
  else if c = 9 then codes "\\t"
  else if c = 10 then codes "\\n"
  else if c = 12 then codes "\\f"
  else if c = 13 then codes "\\r"
  else if c < 0x10000 then unicodeEscape c
  else unicodeEscape (0xD800 + (c - 0x10000) / 1024) ++ unicodeEscape (0xDC00 + (c - 0x10000) % 1024)

/-! ### The source -/

/-- `LIST_DIR_MAX_BYTES`. -/
def listDirMaxBytes : ℕ := 10000

/-- What stands before the name in a hint. -/
def hintHead : Name :=
  codes "\n\n[还有条目；继续调用 list_dir，保持 path 不变，设置 after=\""

/-- What stands behind it. -/
def hintTail : Name :=
  codes "\"。目录变化可能影响后续页面。]"

/-- `_list_dir_next_page`. -/
def listDirNextPage (after : Name) : Name :=
  hintHead ++ after.flatMap escape ++ hintTail

/-- A directory: its names in the order of `scandir`, and which are directories. -/
structure Directory where
  names : List Name
  isDir : Name → Bool
  nodup : names.Nodup
  short : ∀ name ∈ names, diskSize name ≤ 255

/-- A line of the listing. -/
def Directory.line (dir : Directory) (name : Name) : Name :=
  codes (if dir.isDir name then "📁 " else "📄 ") ++ name

/-- `"\n".join(items)`. -/
def Directory.output (dir : Directory) (items : List Name) : Name :=
  List.intercalate [10] (items.map dir.line)

/-- The output with the hint that names its last entry, of a page that has `total` names to show. -/
def Directory.render (dir : Directory) (total : ℕ) (items : List Name) : Name :=
  dir.output items ++
    match items.getLast? with
    | some last => if items.length < total then listDirNextPage last else []
    | none => []

/-- The loop of `_list_from_disk`; the index is the number of the items. -/
def Directory.fill (dir : Directory) (total : ℕ) :
    List Name → ℕ → List Name → Except String (List Name)
  | [], _, items => .ok items
  | name :: names, usedBytes, items => do
      let bytes ← encodedLength (dir.line name)
      let lineBytes := bytes + if items = [] then 0 else 1
      let hint := if items.length + 1 < total then listDirNextPage name else []
      let hintBytes ← encodedLength hint
      if listDirMaxBytes < usedBytes + lineBytes + hintBytes then .ok items
      else dir.fill total names (usedBytes + lineBytes) (items ++ [name])

/-- A page: its text, and for the reader of it the entries it shows and the name in its hint. -/
structure Page where
  text : Name
  names : List Name
  next : Option Name

/-- What a call returns: a page, that nothing is left, or a `FileError`. -/
inductive FileResult where
  | page (page : Page)
  | nothing
  | error (text : String)

/-- `_list_from_disk` of a directory. -/
def Directory.listFromDisk (dir : Directory) (limit : ℕ) (after : Option Name) :
    Except String FileResult :=
  let behind := dir.names.filter fun name => after.all (· < name)
  let names := (behind.mergeSort (· ≤ ·)).take (limit + 1)
  if names = [] then .ok .nothing
  else do
    let items ← dir.fill names.length (names.take limit) 0 []
    if items = [] then .ok (.error "错误：单个目录条目超过 10KB 输出上限")
    else
      .ok (.page ⟨dir.render names.length items, items,
        if items.length < names.length then items.getLast? else none⟩)

/-! ### Following the pages -/

/-- The pages of a reader that follows the hints. -/
inductive Directory.Follows (dir : Directory) (limit : ℕ) : Option Name → List Page → Prop
  | nothing {after} (h : dir.listFromDisk limit after = .ok .nothing) : dir.Follows limit after []
  | last {after page} (h : dir.listFromDisk limit after = .ok (.page page))
      (hnext : page.next = none) : dir.Follows limit after [page]
  | next {after page name pages} (h : dir.listFromDisk limit after = .ok (.page page))
      (hnext : page.next = some name) (rest : dir.Follows limit (some name) pages) :
      dir.Follows limit after (page :: pages)

/-- Every entry is listed once, in order, on pages that are not too long. -/
def Directory.Enumerates (dir : Directory) (limit : ℕ) : Prop :=
  ∃ pages, dir.Follows limit none pages ∧
    (pages.flatMap Page.names).Perm dir.names ∧ (pages.flatMap Page.names).Pairwise (· < ·) ∧
    ∀ page ∈ pages, ∃ bytes, encodedLength page.text = .ok bytes ∧ bytes ≤ listDirMaxBytes

/-! ### Sizes -/

theorem encodedLength_eq_ok {text : Name} {bytes : ℕ} :
    encodedLength text = .ok bytes ↔ (∀ c ∈ text, isSurrogate c = false) ∧ size text = bytes := by
  rw [encodedLength]
  split_ifs with h
  · refine iff_of_false (fun h => nomatch h) fun hall => ?_
    obtain ⟨c, hc, hsurrogate⟩ := List.any_eq_true.mp h
    exact Bool.false_ne_true ((hall.1 c hc).symm.trans hsurrogate)
  · rw [Except.ok.injEq, and_iff_right]
    exact fun c hc => eq_false_of_ne_true fun hs => h (List.any_eq_true.mpr ⟨c, hc, hs⟩)

theorem size_append (text more : Name) : size (text ++ more) = size text + size more := by
  rw [size, List.map_append, List.sum_append]
  rfl

theorem unicodeEscape_spec (c : ℕ) :
    (∀ d ∈ unicodeEscape c, d < 128) ∧ (unicodeEscape c).length = 6 := by
  refine ⟨fun d hd => ?_, rfl⟩
  rcases List.mem_append.mp hd with hd | hd
  · exact (by decide : ∀ d ∈ codes "\\u", d < 128) d hd
  · obtain ⟨digit, hdigit, rfl⟩ := List.mem_map.mp hd
    have hlt : digit < 16 := by
      simp only [List.mem_cons, List.not_mem_nil, or_false] at hdigit
      omega
    split_ifs <;> omega

theorem escape_spec (c : ℕ) :
    (∀ d ∈ escape c, d < 128) ∧ (escape c).length ≤ 6 * diskWidth c := by
  have hwidth : 1 ≤ diskWidth c := by
    rw [diskWidth, utf8Width]
    split_ifs <;> omega
  have hfew : ∀ text : Name, text.length ≤ 6 → text.length ≤ 6 * diskWidth c := fun _ h =>
    le_trans h (Nat.le_mul_of_pos_right 6 hwidth)
  rw [escape]
  split_ifs with hquote hplain _ _ _ _ _ hbasic
  · refine ⟨?_, hfew _ (by simp)⟩
    rcases hquote with rfl | rfl <;> decide
  · exact ⟨fun d hd => by rw [List.mem_singleton.mp hd]; omega, hfew _ (by simp)⟩
  iterate 5 exact ⟨by decide, hfew _ (by decide)⟩
  · exact ⟨(unicodeEscape_spec c).1, hfew _ (unicodeEscape_spec c).2.le⟩
  · have hfour : diskWidth c = 4 := by
      rw [diskWidth, isSurrogate, utf8Width, decide_eq_false (by omega : ¬c < 0xE000), Bool.and_false,
        if_neg Bool.false_ne_true]
      split_ifs <;> omega
    refine ⟨fun d hd => ?_, by
      rw [List.length_append, (unicodeEscape_spec _).2, (unicodeEscape_spec _).2, hfour]; decide⟩
    rcases List.mem_append.mp hd with hd | hd
    · exact (unicodeEscape_spec _).1 d hd
    · exact (unicodeEscape_spec _).1 d hd

theorem hint_spec : (∀ c ∈ hintHead ++ hintTail, isSurrogate c = false) ∧
    size hintHead + size hintTail ≤ 200 := by
  decide

/-- **A hint can be encoded**, and leaves room for a line. -/
theorem encodedLength_listDirNextPage (name : Name) :
    encodedLength (listDirNextPage name) = .ok (size (listDirNextPage name)) ∧
      size (listDirNextPage name) ≤ 200 + 6 * diskSize name := by
  have hall : ∀ d ∈ name.flatMap escape, d < 128 := fun d hd => by
    obtain ⟨c, -, hd⟩ := List.mem_flatMap.mp hd
    exact (escape_spec c).1 d hd
  have hsize : size (name.flatMap escape) ≤ 6 * diskSize name := by
    clear hall
    induction name with
    | nil => exact Nat.zero_le _
    | cons c name ih =>
        have hone : (escape c).map utf8Width = (escape c).map fun _ => 1 :=
          List.map_congr_left fun d hd => if_pos ((escape_spec c).1 d hd)
        have hascii : size (escape c) = (escape c).length := by simp [size, hone]
        have hc := (escape_spec c).2
        rw [List.flatMap_cons, size_append, hascii, diskSize, List.map_cons, List.sum_cons]
        rw [diskSize] at ih
        omega
  refine ⟨encodedLength_eq_ok.mpr ⟨fun c hc => ?_, rfl⟩, ?_⟩
  · rw [listDirNextPage, List.append_assoc, List.mem_append, List.mem_append] at hc
    rcases hc with hc | hc | hc
    · exact hint_spec.1 c (List.mem_append_left _ hc)
    · rw [isSurrogate, decide_eq_false (by have := hall c hc; omega), Bool.false_and]
    · exact hint_spec.1 c (List.mem_append_right _ hc)
  · have := hint_spec.2
    rw [listDirNextPage, size_append, size_append]
    omega

/-! ### Pages -/

section Pages

variable {dir : Directory} {total : ℕ} {items : List Name}

/-- What has no surrogates. -/
def Plain (name : Name) : Prop :=
  ∀ c ∈ name, isSurrogate c = false

theorem encodedLength_line (dir : Directory) {name : Name} (h : Plain name) :
    encodedLength (dir.line name) = .ok (size (dir.line name)) := by
  refine encodedLength_eq_ok.mpr ⟨fun c hc => ?_, rfl⟩
  rcases List.mem_append.mp hc with hc | hc
  · have hicon : ∀ icon ∈ ["📁 ", "📄 "], ∀ c ∈ codes icon, isSurrogate c = false := by decide
    exact hicon _ (by split_ifs <;> simp) c hc
  · exact h c hc

theorem output_concat (dir : Directory) (items : List Name) (name : Name) :
    dir.output (items ++ [name]) =
      dir.output items ++ (if items = [] then [] else [10]) ++ dir.line name := by
  rw [Directory.output, Directory.output, List.map_append, List.map_singleton]
  induction items with
  | nil => simp
  | cons first items ih =>
      cases items with
      | nil => rw [if_neg (List.cons_ne_nil _ _)]; simp
      | cons second items =>
          rw [if_neg (List.cons_ne_nil _ _)] at ih ⊢
          rw [List.map_cons, List.map_cons, List.cons_append, List.cons_append,
            List.intercalate_cons_cons, List.intercalate_cons_cons, ← List.cons_append,
            ← List.map_cons, ih]
          simp only [List.append_assoc]

/-- The hint behind one more entry. -/
def hint (total : ℕ) (items : List Name) (name : Name) : Name :=
  if items.length + 1 < total then listDirNextPage name else []

theorem encodedLength_hint (total : ℕ) (items : List Name) (name : Name) :
    encodedLength (hint total items name) = .ok (size (hint total items name)) := by
  rw [hint]
  split_ifs
  · exact (encodedLength_listDirNextPage name).1
  · rfl

theorem render_concat (dir : Directory) (total : ℕ) (items : List Name) (name : Name) :
    dir.render total (items ++ [name]) = dir.output (items ++ [name]) ++ hint total items name := by
  rw [Directory.render, List.getLast?_concat, List.length_append]
  rfl

/-- Entries that fit on a page with their hint. -/
def Fits (dir : Directory) (total : ℕ) (items : List Name) : Prop :=
  Plain (dir.render total items) ∧ size (dir.render total items) ≤ listDirMaxBytes

theorem size_output_concat (dir : Directory) (items : List Name) (name : Name) :
    size (dir.output (items ++ [name])) =
      size (dir.output items) + (size (dir.line name) + if items = [] then 0 else 1) := by
  rw [output_concat, size_append, size_append, Nat.add_assoc, Nat.add_comm (size (dir.line name))]
  split_ifs <;> rfl

theorem fill_cons {name : Name} (hname : Plain name) (names : List Name) :
    dir.fill total (name :: names) (size (dir.output items)) items =
      if listDirMaxBytes < size (dir.output (items ++ [name])) + size (hint total items name) then
        .ok items
      else dir.fill total names (size (dir.output (items ++ [name]))) (items ++ [name]) := by
  rw [Directory.fill, encodedLength_line dir hname, size_output_concat]
  dsimp only [bind, Except.bind]
  rw [← hint, encodedLength_hint]

theorem Fits.concat (h : Fits dir total items) {name : Name} (hname : Plain name)
    (hroom : ¬listDirMaxBytes <
      size (dir.output (items ++ [name])) + size (hint total items name)) :
    Fits dir total (items ++ [name]) := by
  rw [Fits, render_concat, size_append]
  refine ⟨fun c hc => ?_, Nat.le_of_not_lt hroom⟩
  rw [output_concat, List.mem_append, List.mem_append, List.mem_append] at hc
  rcases hc with ((hc | hc) | hc) | hc
  · exact h.1 c (List.mem_append_left _ hc)
  · split_ifs at hc
    · cases hc
    · rw [List.mem_singleton.mp hc]
      rfl
  · exact (encodedLength_eq_ok.mp (encodedLength_line dir hname)).1 c hc
  · exact (encodedLength_eq_ok.mp (encodedLength_hint total items name)).1 c hc

/-- **What a page holds**: as many entries as fit, in their order. -/
theorem fill_spec {names : List Name} (hplain : ∀ name ∈ names, Plain name)
    (h : Fits dir total items) :
    ∃ shown, dir.fill total names (size (dir.output items)) items = .ok (items ++ shown) ∧
      Fits dir total (items ++ shown) ∧ shown <+: names := by
  induction names generalizing items with
  | nil => exact ⟨[], by rw [List.append_nil]; rfl, by rwa [List.append_nil], List.nil_prefix⟩
  | cons name names ih =>
      have hname := hplain name List.mem_cons_self
      rw [fill_cons hname]
      by_cases hlong : listDirMaxBytes <
          size (dir.output (items ++ [name])) + size (hint total items name)
      · exact ⟨[], by rw [if_pos hlong, List.append_nil], by rwa [List.append_nil],
          List.nil_prefix⟩
      · obtain ⟨shown, hshown, hfits, hprefix⟩ :=
          ih (fun n hn => hplain n (List.mem_cons_of_mem _ hn)) (h.concat hname hlong)
        rw [List.append_assoc] at hshown hfits
        exact ⟨name :: shown, by rw [if_neg hlong, hshown]; rfl, hfits,
          List.cons_prefix_cons.mpr ⟨rfl, hprefix⟩⟩

/-- **A page shows an entry**, because a name and its hint are short. -/
theorem exists_shown {name : Name} {names : List Name}
    (hplain : ∀ n ∈ name :: names, Plain n) (hshort : diskSize name ≤ 255) :
    ∃ shown, dir.fill total (name :: names) 0 [] = .ok (name :: shown) ∧
      Fits dir total (name :: shown) ∧ shown <+: names := by
  have hname := hplain name List.mem_cons_self
  have hempty : Fits dir total [] := ⟨nofun, Nat.zero_le _⟩
  have hwidths : name.map utf8Width = name.map diskWidth :=
    List.map_congr_left fun c hc => (if_neg (ne_true_of_eq_false (hname c hc))).symm
  have hline : size (dir.line name) ≤ 5 + 255 := by
    rw [Directory.line, size_append]
    refine Nat.add_le_add ?_ (le_trans (le_of_eq (congrArg List.sum hwidths)) hshort)
    split_ifs <;> decide
  have hhint : size (hint total [] name) ≤ 200 + 6 * diskSize name := by
    rw [hint]
    split_ifs
    · exact (encodedLength_listDirNextPage name).2
    · exact Nat.zero_le _
  have hroom : ¬listDirMaxBytes < size (dir.output ([] ++ [name])) + size (hint total [] name) := by
    rw [size_output_concat, listDirMaxBytes, show size (dir.output []) = 0 from rfl, if_pos rfl]
    omega
  have hfill := @fill_cons dir total [] name hname names
  rw [if_neg hroom] at hfill
  obtain ⟨shown, hshown, hfits, hprefix⟩ :=
    fill_spec (fun n hn => hplain n (List.mem_cons_of_mem _ hn)) (hempty.concat hname hroom)
  exact ⟨shown, hfill.trans hshown, hfits, hprefix⟩

theorem plain_of_fill {names : List Name} {used : ℕ} {shown : List Name}
    (h : dir.fill total names used items = .ok shown) (hitems : ∀ name ∈ items, Plain name) :
    ∀ name ∈ shown, Plain name := by
  induction names generalizing used items with
  | nil => cases h; exact hitems
  | cons name names ih =>
      rw [Directory.fill] at h
      obtain ⟨bytes, hbytes, h⟩ := bind_eq_ok.mp h
      obtain ⟨hintBytes, -, h⟩ := bind_eq_ok.mp h
      by_cases hlong : listDirMaxBytes <
          used + (bytes + if items = [] then 0 else 1) + hintBytes
      · rw [if_pos hlong] at h
        cases h
        exact hitems
      · rw [if_neg hlong] at h
        refine ih h fun n hn => ?_
        rcases List.mem_append.mp hn with hn | hn
        · exact hitems n hn
        · rw [List.mem_singleton.mp hn]
          exact fun c hc => (encodedLength_eq_ok.mp hbytes).1 c (List.mem_append_right _ hc)

end Pages

/-! ### Following the hints -/

section Following

variable {dir : Directory} {limit : ℕ}

theorem behind_eq {after : Option Name} {front rest : List Name}
    (hsorted : dir.names.mergeSort (· ≤ ·) = front ++ rest) (hafter : front.getLast? = after) :
    (dir.names.filter fun name => after.all (· < name)).mergeSort (· ≤ ·) = rest := by
  have hperm := List.mergeSort_perm dir.names (· ≤ ·)
  have hle := List.pairwise_mergeSort' (· ≤ ·) dir.names
  have hlt : (front ++ rest).Pairwise (· < ·) := by
    rw [← hsorted]
    exact (hle.and (hperm.nodup_iff.mpr dir.nodup)).imp fun h => lt_of_le_of_ne h.1 h.2
  have hfilter : (front ++ rest).filter (fun name => after.all (· < name)) = rest := by
    rcases List.eq_nil_or_concat front with rfl | ⟨front, last, rfl⟩
    · rw [← hafter]
      exact List.filter_eq_self.mpr fun _ _ => rfl
    · rw [List.concat_eq_append] at hlt hafter ⊢
      rw [List.getLast?_concat] at hafter
      rw [← hafter, List.filter_append]
      rw [List.pairwise_append] at hlt
      have hlast : ∀ name ∈ front ++ [last], ¬last < name := fun name hname => by
        rcases List.mem_append.mp hname with hname | hname
        · exact not_lt_of_gt ((List.pairwise_append.mp hlt.1).2.2 name hname last
            (List.mem_singleton_self last))
        · rw [List.mem_singleton.mp hname]
          exact lt_irrefl last
      rw [List.filter_eq_nil_iff.mpr fun name hname => by simpa using hlast name hname,
        List.filter_eq_self.mpr fun name hname => by
          simpa using hlt.2.2 last (by simp) name hname]
      rfl
  refine List.Perm.eq_of_pairwise' (List.pairwise_mergeSort' (· ≤ ·) _)
    ((List.pairwise_append.mp hlt).2.1.imp le_of_lt) ((List.mergeSort_perm _ _).trans ?_)
  rw [← hfilter, ← hsorted]
  exact (hperm.filter _).symm

/-- **The rest of a directory is listed**, page after page. -/
theorem exists_follows (hplain : ∀ name ∈ dir.names, Plain name) (hlimit : 1 ≤ limit)
    {after : Option Name} {front rest : List Name}
    (hsorted : dir.names.mergeSort (· ≤ ·) = front ++ rest) (hafter : front.getLast? = after) :
    ∃ pages, dir.Follows limit after pages ∧ pages.flatMap Page.names = rest ∧
      ∀ page ∈ pages, ∃ bytes, encodedLength page.text = .ok bytes ∧ bytes ≤ listDirMaxBytes := by
  obtain ⟨k, rfl⟩ := Nat.exists_eq_add_of_le' hlimit
  induction hn : rest.length using Nat.strong_induction_on generalizing after front rest with
  | _ n ih =>
      have hbehind := behind_eq hsorted hafter
      have hmem : ∀ name ∈ rest, name ∈ dir.names := fun name hname =>
        (List.mergeSort_perm dir.names (· ≤ ·)).mem_iff.mp
          (hsorted ▸ List.mem_append_right front hname)
      cases rest with
      | nil =>
          refine ⟨[], .nothing ?_, rfl, nofun⟩
          rw [Directory.listFromDisk, hbehind]
          rfl
      | cons name tail =>
          obtain ⟨shown, hfill, hfits, hprefix⟩ := @exists_shown dir
            (name :: tail.take (k + 1)).length name (tail.take k)
            (fun n hn => hplain n (hmem n ((List.cons_subset_cons name
              (List.take_subset k tail)) hn)))
            (dir.short name (hmem name List.mem_cons_self))
          have hlist : dir.listFromDisk (k + 1) after =
              .ok (.page ⟨dir.render (name :: tail.take (k + 1)).length (name :: shown),
                name :: shown, if (name :: shown).length < (name :: tail.take (k + 1)).length then
                  (name :: shown).getLast? else none⟩) := by
            rw [Directory.listFromDisk, hbehind, List.take_succ_cons, List.take_succ_cons,
              List.take_take, Nat.min_eq_left (Nat.le_succ k), if_neg (List.cons_ne_nil _ _), hfill]
            rfl
          have hsize : ∃ bytes, encodedLength (dir.render (name :: tail.take (k + 1)).length
              (name :: shown)) = .ok bytes ∧ bytes ≤ listDirMaxBytes :=
            ⟨_, encodedLength_eq_ok.mpr ⟨hfits.1, rfl⟩, hfits.2⟩
          obtain ⟨tail', htail⟩ := hprefix.trans (List.take_prefix k tail)
          by_cases hmore : (name :: shown).length < (name :: tail.take (k + 1)).length
          · rw [if_pos hmore, List.getLast?_eq_some_getLast (List.cons_ne_nil name shown)] at hlist
            have hfewer : tail'.length < n := by
              rw [← hn, ← htail, List.length_cons, List.length_append]
              omega
            have hsorted' : dir.names.mergeSort (· ≤ ·) = (front ++ name :: shown) ++ tail' := by
              rw [hsorted, ← htail, List.append_assoc, List.cons_append]
            have hlast : (front ++ name :: shown).getLast? =
                some ((name :: shown).getLast (List.cons_ne_nil name shown)) := by
              rw [List.getLast?_append, List.getLast?_eq_some_getLast (List.cons_ne_nil _ _)]
              rfl
            obtain ⟨pages, hfollows, hnames, hsizes⟩ := ih tail'.length hfewer hsorted' hlast rfl
            exact ⟨_, .next hlist rfl hfollows, by rw [List.flatMap_cons, hnames, ← htail]; rfl,
              List.forall_mem_cons.mpr ⟨hsize, hsizes⟩⟩
          · have hall : tail' = [] := by
              have hlength := congrArg List.length htail
              have hshort := hprefix.length_le
              rw [List.length_append] at hlength
              rw [List.length_take] at hshort
              rw [List.length_cons, List.length_cons, List.length_take] at hmore
              exact List.length_eq_zero_iff.mp (by omega)
            rw [if_neg hmore] at hlist
            rw [hall, List.append_nil] at htail
            exact ⟨_, .last hlist rfl, by rw [← htail]; simp, List.forall_mem_singleton.mpr hsize⟩

theorem Directory.Follows.plain {after : Option Name} {pages : List Page}
    (h : dir.Follows limit after pages) : ∀ page ∈ pages, ∀ name ∈ page.names, Plain name := by
  have hpage : ∀ {after page}, dir.listFromDisk limit after = .ok (.page page) →
      ∀ name ∈ page.names, Plain name := by
    intro after page h
    rw [Directory.listFromDisk] at h
    split_ifs at h
    · cases h
    · obtain ⟨items, hitems, h⟩ := bind_eq_ok.mp h
      by_cases hnone : items = []
      · rw [if_pos hnone] at h
        cases h
      · rw [if_neg hnone] at h
        cases h
        exact plain_of_fill hitems nofun
  induction h with
  | nothing => exact nofun
  | last h hnext => exact fun page hmem => List.mem_singleton.mp hmem ▸ hpage h
  | next h hnext rest ih => exact List.forall_mem_cons.mpr ⟨hpage h, ih⟩

theorem Directory.Enumerates.plain (h : dir.Enumerates limit) :
    ∀ name ∈ dir.names, Plain name := by
  obtain ⟨pages, hfollows, hperm, -, -⟩ := h
  intro name hname
  obtain ⟨page, hpage, hmem⟩ := List.mem_flatMap.mp (hperm.mem_iff.mpr hname)
  exact hfollows.plain page hpage name hmem

end Following

/-- **Every name is listed once** exactly where every name is a text. -/
theorem enumerates_iff (dir : Directory) (limit : Set.Icc (1 : ℕ) 500) :
    dir.Enumerates limit ↔ ∀ name ∈ dir.names, ∀ c ∈ name, isSurrogate c = false := by
  refine ⟨Directory.Enumerates.plain, fun hplain => ?_⟩
  obtain ⟨pages, hfollows, hnames, hsizes⟩ :=
    @exists_follows dir limit hplain limit.2.1 none [] _ rfl rfl
  have hperm := List.mergeSort_perm dir.names (· ≤ ·)
  refine ⟨pages, hfollows, hnames ▸ hperm, ?_, hsizes⟩
  rw [hnames]
  exact ((List.pairwise_mergeSort' (· ≤ ·) dir.names).and
    (hperm.nodup_iff.mpr dir.nodup)).imp fun h => lt_of_le_of_ne h.1 h.2

/-- A directory with one file, whose name is the byte `0xff`. -/
def undecodable : Directory where
  names := [[0xDCFF]]
  isDir := fun _ => false
  nodup := List.nodup_singleton _
  short := by decide

/-- A name that is no text cannot be listed. -/
theorem undecodable_raises :
    undecodable.listFromDisk 500 none = .error "'utf-8' codec can't encode: surrogates not allowed" ∧
      ¬undecodable.Enumerates 500 := by
  refine ⟨?_, fun h => absurd (h.plain [0xDCFF] (by decide) 0xDCFF (by decide)) (by decide)⟩
  have hbehind := @behind_eq undecodable none [] [[0xDCFF]] (List.mergeSort_singleton _) rfl
  rw [Directory.listFromDisk, hbehind]
  rfl

end Kirakira.DirectoryPages
