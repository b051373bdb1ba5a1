import Mathlib.Data.List.Infix
import Kirakira.Lib.Bisection
import Kirakira.Codec
import Kirakira.SummaryClipping

/-!
# Summary Inputs

`_fit_inputs` of `plugins/compaction/message_summary.py`: what of the previous summary and of the
messages goes into a summary request. The previous summary is kept rather than the length of the
excerpts, these rather than older messages; of these the most recent ones are taken.

The model that writes the summary is a parameter: its limits and its token estimate. A request
fits when the estimate does not pass the soft limit. The binary search needs one property of
the estimate, that it does not fall when older messages come before the ones at hand
(`GrowsWithSource`); the search through the last group needs none.

## Main results

* `fitPair_eq` — for one summary and one excerpt length, the longest suffix that fits is taken.
* `fitInputs_maximal` — **the first pair that lets any suffix in gets its longest one**, and
  there is none to be had where the call fails.
* `growsWithSource_estimateTokens` — the drivers that count characters have the property.
-/

namespace Kirakira.Compaction

open Bisection Rounding

/-! ### The source -/

/-- The parts that are no material. -/
def hiddenKinds : List String :=
  ["model.facts", "context.summary", "context.notice", "model.selection", "tool.selection"]

/-- Whether a part is material: a call, or content of no hidden kind. -/
def isMaterial : Part → Bool
  | .content part => !hiddenKinds.contains part.kind
  | .toolCall _ => true

theorem any_isToolCall_filter (parts : List Part) :
    (parts.filter isMaterial).any Part.isToolCall = parts.any Part.isToolCall := by
  induction parts with
  | nil => rfl
  | cons part parts ih =>
      cases part with
      | content part =>
          by_cases h : isMaterial (.content part) = true
          · rw [List.filter_cons_of_pos h, List.any_cons, List.any_cons, ih]
          · rw [List.filter_cons_of_neg h, List.any_cons, ih]
            rfl
      | toolCall call => rfl

/-- A body without its hidden parts. -/
def materialBody : Body → Body
  | .input body => .input ⟨body.parts.filter fun part => isMaterial (.content part)⟩
  | .output body =>
      .output ⟨body.parts.filter isMaterial, body.finish, fun h =>
        (any_isToolCall_filter body.parts).trans (body.calls_continue h)⟩
  | .toolResult body =>
      .toolResult { body with parts := body.parts.filter fun part => isMaterial (.content part) }
  | .control body => .control body

/-- `EXCERPT_CHARS`. -/
def excerptChars : List ℕ :=
  [4000, 1000, 200]

/-- `_excerpt`. -/
def excerptOf (body : Json) (chars : ℕ) : Json :=
  let text := body.dumps.toList
  let half := chars / 2
  if text.length ≤ chars then body
  else .obj [("excerpt", .str (String.ofList (text.take half) ++ "\n[…省略 " ++
    toString ((text.length : ℤ) - 2 * half) ++ " 字符，原文仍在日志…]\n" ++
    String.ofList (text.drop (text.length - half))))]

/-- One row of `source_text`. -/
def sourceRow (excerpt : Option ℕ) (message : Message) : Json :=
  let data := Json.obj (bodyToDict (materialBody message.body))
  .obj [("message_id", .str message.messageId), ("source", .str message.source),
    ("author", .str message.author), ("seq", .int message.seq),
    ("body", excerpt.elim data (excerptOf data))]

/-- `source_text`. -/
def sourceText (messages : List Message) (excerpt : Option ℕ) : String :=
  (Json.arr (messages.map (sourceRow excerpt))).dumps

/-! ### Requests -/

/-- What a request reads of a `BoundChatModel`. -/
structure BoundChatModel where
  contextWindow : Option ℤ
  maxOutputTokens : Option ℤ
  estimateContextTokens : List Json → ℤ

/-- A `ModelRequest` with `disable_reasoning`. -/
structure ModelRequest where
  rows : List Json
  maxOutputTokens : ℤ

/-- `SummaryError`. -/
structure SummaryError where
  text : String
  deriving DecidableEq

/-- `PROMPT`. -/
def prompt : String :=
  "更新当前长任务的上下文压缩摘要。

只记录输入中已经出现的事实，不补充猜测，不把计划写成已完成。
摘要只替代已结算的旧消息；完整原文和工具结果仍保留。
用户消息是理解目标、要求、偏好和关系的核心证据。只有 author=user 的原话能够建立这些用户事实。
助手消息只记录助手的判断、计划和执行过程；不得用助手转述或猜测补全用户没有表达的上下文。
区分用户原话、助手判断及工具/后台结果，保留重要来源身份；转述不能升级成用户事实或偏好。
必须严格使用以下标题，不得增加标题：
" ++ String.ofList (Lines.joinLines headings) ++ "

保留路径、符号、命令、错误、数值、外部效果和验证结果。
仍在运行的执行必须保留 execution_id、命令和当前状态。
优先保留当前目标、未完成工作、明确约束及继续执行所必需的事实。
已解决的问题只留结论；闲聊只记有持续价值的信息，不能扩写成任务。
每条事实只写一次，空节写“无”，省略重复探索、无用日志和 provider 协议细节。只输出摘要正文。
"

/-- `MAX_OUTPUT_TOKENS`. -/
def maxOutputTokens : ℤ :=
  4096

/-- A number with commas between its thousands. -/
def withCommas (n : ℕ) : String :=
  String.ofList (List.intercalate [','] ((toString n).toList.reverse.toChunks 3)).reverse

/-- The budget of a request. -/
def outputBudget (m : BoundChatModel) (limit : ℤ) : ℤ :=
  let budget := max 1 (min limit maxOutputTokens)
  match m.maxOutputTokens with
  | some maximum => if 0 < maximum then min budget maximum else budget
  | none => budget

/-- `int(window * 0.74)`. -/
def softLimit (window : ℤ) : ℤ :=
  window.sign * ⌊roundBinary 53 (roundBinary 53 (window.natAbs : ℚ) * roundBinary 53 (74 / 100))⌋

/-- The rows of a request. -/
def requestRows (m : BoundChatModel) (summary : String) (messages : List Message) (limit : ℤ)
    (excerpt : ℕ) : List Json :=
  [.obj [("role", .str "user"), ("content", .str (prompt ++ "摘要正文不超过约 " ++
    withCommas (max 1 (outputBudget m limit / 2)).toNat ++ " tokens；信息少时应更短。\n" ++
    "\n[Previous summary]\n" ++ summary ++ "\n[Source messages]\n" ++
    sourceText messages (some excerpt)))]]

/-- `_request`. -/
def request (m : BoundChatModel) (summary : String) (groups : List (List Message)) (limit : ℤ)
    (excerpt : ℕ) : Except SummaryError ModelRequest :=
  let rows := requestRows m summary groups.flatten limit excerpt
  match m.contextWindow with
  | none => .error ⟨"摘要模型缺少已确认的 context_window"⟩
  | some window =>
      if softLimit window < m.estimateContextTokens rows then
        .error ⟨"单个摘要请求超出模型软水位"⟩
      else .ok ⟨rows, outputBudget m limit⟩

/-- `_fits`. -/
def fits (m : BoundChatModel) (summary : String) (limit : ℤ) (excerpt : ℕ)
    (groups : List (List Message)) : Bool :=
  (request m summary groups limit excerpt).isOk

/-! ### The choice -/

/-- `l[-n:]`. -/
def lastN {α : Type} (n : ℤ) (l : List α) : List α :=
  l.drop (l.length - n.toNat)

/-- The search for one summary and one excerpt length. -/
def fitPair (fits : List (List Message) → Bool) (groups : List (List Message)) :
    Option (List (List Message)) :=
  match groups.getLast? with
  | none => if fits [] then some [] else none
  | some last =>
      let size := bisect (fun middle => fits (lastN middle groups)) 1 groups.length 0
      if size ≠ 0 then some (lastN size groups)
      else
        ((downFrom (last.length - 1)).find? fun count => fits [lastN count last]).map
          fun count => [lastN count last]

/-- The ratios, in the order they are tried. -/
def ratios : List (Set.Icc (0 : ℚ) 1) :=
  [⟨1, by norm_num⟩, ⟨1 / 2, by norm_num⟩, ⟨1 / 4, by norm_num⟩, ⟨0, by norm_num⟩]

/-- The previous summary at a ratio. -/
def summaryAt (previous : String) (ratio : Set.Icc (0 : ℚ) 1) : String :=
  if ratio = ⟨1, by norm_num⟩ ∨ previous = "" then previous
  else String.ofList (clipSummary previous.toList ratio)

/-- `_fit_inputs`. -/
def fitInputs (m : BoundChatModel) (groups : List (List Message)) (previous : String)
    (limit : ℤ) : Except SummaryError (String × List (List Message) × ℕ) :=
  let chosen := ratios.findSome? fun ratio =>
    excerptChars.findSome? fun excerpt =>
      (fitPair (fits m (summaryAt previous ratio) limit excerpt) groups).map fun selected =>
        (summaryAt previous ratio, selected, excerpt)
  match chosen with
  | some chosen => .ok chosen
  | none => .error ⟨"摘要提示加一条最短消息摘录已超过摘要模型容量"⟩

/-! ### Suffixes -/

/-- What can be taken, from the longest on: the last groups, and then the last messages of the
last group. -/
def suffixes (groups : List (List Message)) : List (List (List Message)) :=
  match groups.getLast? with
  | none => [[]]
  | some last =>
      (downFrom groups.length).map (lastN · groups) ++
        (downFrom (last.length - 1)).map fun count => [lastN count last]

/-- What a suffix of the groups is: some of the last groups, or some of the last messages of the
last one. -/
def IsRecent (groups selected : List (List Message)) : Prop :=
  (selected ≠ [] ∧ selected <:+ groups) ∨
    ∃ last messages, groups.getLast? = some last ∧ selected = [messages] ∧ messages ≠ [] ∧
      messages <:+ last

/-- The pairs of a ratio and an excerpt length, in the order they are tried. -/
def tries : List (Set.Icc (0 : ℚ) 1 × ℕ) :=
  ratios.flatMap fun ratio => excerptChars.map (ratio, ·)

/-- Whether a suffix fits at a pair. -/
def FitsAt (m : BoundChatModel) (previous : String) (limit : ℤ) (pair : Set.Icc (0 : ℚ) 1 × ℕ)
    (selected : List (List Message)) : Prop :=
  fits m (summaryAt previous pair.1) limit pair.2 selected = true

/-- The estimate does not fall when the older end of the source is extended. -/
def GrowsWithSource (m : BoundChatModel) : Prop :=
  ∀ summary limit excerpt (older newer : List Message),
    m.estimateContextTokens (requestRows m summary newer limit excerpt) ≤
      m.estimateContextTokens (requestRows m summary (older ++ newer) limit excerpt)

section LastN

variable {α : Type} {n : ℤ} {l : List α}

theorem lastN_isSuffix (n : ℤ) (l : List α) : lastN n l <:+ l :=
  List.drop_suffix _ _

theorem length_lastN (h : n ≤ l.length) : (lastN n l).length = n.toNat := by
  rw [lastN, List.length_drop]
  omega

theorem lastN_ne_nil (hn : 1 ≤ n) (h : n ≤ l.length) : lastN n l ≠ [] := by
  intro hnil
  have hlength := length_lastN h
  rw [hnil, List.length_nil] at hlength
  omega

theorem lastN_isSuffix_lastN {j k : ℤ} (h : j ≤ k) (l : List α) : lastN j l <:+ lastN k l :=
  List.drop_suffix_drop_left l (by omega)

theorem mem_downFrom {bound : ℕ} : n ∈ downFrom bound ↔ 1 ≤ n ∧ n ≤ bound := by
  rw [downFrom, List.mem_map]
  constructor
  · rintro ⟨i, hi, rfl⟩
    rw [List.mem_reverse, List.mem_range] at hi
    omega
  · rintro ⟨hpos, hle⟩
    refine ⟨(n - 1).toNat, ?_, by omega⟩
    rw [List.mem_reverse, List.mem_range]
    omega

end LastN

variable {m : BoundChatModel} {groups selected : List (List Message)} {summary : String}
  {limit : ℤ} {excerpt : ℕ}

/-- **All that can be taken is recent**, where there are groups. -/
theorem isRecent_of_mem_suffixes (hne : groups ≠ []) (h : selected ∈ suffixes groups) :
    IsRecent groups selected := by
  have hlast : groups.getLast? = some (groups.getLast hne) := List.getLast?_eq_getLast_of_ne_nil hne
  rw [suffixes, hlast] at h
  rcases List.mem_append.mp h with h | h
  · obtain ⟨k, hk, rfl⟩ := List.mem_map.mp h
    obtain ⟨hpos, hle⟩ := mem_downFrom.mp hk
    exact .inl ⟨lastN_ne_nil hpos hle, lastN_isSuffix k groups⟩
  · obtain ⟨count, hcount, rfl⟩ := List.mem_map.mp h
    obtain ⟨hpos, hle⟩ := mem_downFrom.mp hcount
    exact .inr ⟨_, _, hlast, rfl, lastN_ne_nil hpos (by omega), lastN_isSuffix count _⟩

/-- **All that is recent can be taken.** -/
theorem mem_suffixes_of_isRecent (h : IsRecent groups selected) : selected ∈ suffixes groups := by
  have htake : ∀ {α : Type} {short l : List α}, short <:+ l → short = lastN short.length l := by
    intro α short l hsuffix
    obtain ⟨front, rfl⟩ := hsuffix
    rw [lastN, List.length_append, Int.toNat_natCast, Nat.add_sub_cancel, List.drop_left]
  rcases h with ⟨hne, hsuffix⟩ | ⟨last, messages, hlast, rfl, hne, hsuffix⟩
  · have hgroups : groups ≠ [] := fun hnil => hne (List.suffix_nil.mp (hnil ▸ hsuffix))
    rw [suffixes, List.getLast?_eq_getLast_of_ne_nil hgroups]
    refine List.mem_append_left _ (List.mem_map.mpr ⟨selected.length, ?_, (htake hsuffix).symm⟩)
    have := List.length_pos_of_ne_nil hne
    have := hsuffix.length_le
    exact mem_downFrom.mpr ⟨by omega, by omega⟩
  · rw [suffixes, hlast]
    have hpos := List.length_pos_of_ne_nil hne
    have hle := hsuffix.length_le
    by_cases hwhole : messages.length = last.length
    · obtain rfl := hsuffix.eq_of_length hwhole
      refine List.mem_append_left _ (List.mem_map.mpr ⟨1, ?_, ?_⟩)
      · have hmem : groups ≠ [] := by
          rintro rfl
          cases hlast
        have := List.length_pos_of_ne_nil hmem
        exact mem_downFrom.mpr ⟨by omega, by omega⟩
      · obtain ⟨front, rfl⟩ := List.getLast?_eq_some_iff.mp hlast
        exact (htake (List.suffix_append front [messages])).symm
    · refine List.mem_append_right _ (List.mem_map.mpr ⟨messages.length, ?_, ?_⟩)
      · exact mem_downFrom.mpr ⟨by omega, by omega⟩
      · exact congrArg (fun l => [l]) (htake hsuffix).symm

/-! ### Fitting -/

theorem fits_eq_true : fits m summary limit excerpt selected = true ↔
    ∃ window, m.contextWindow = some window ∧
      m.estimateContextTokens (requestRows m summary selected.flatten limit excerpt) ≤
        softLimit window := by
  rw [fits, request]
  cases m.contextWindow with
  | none => simp [Except.isOk, Except.toBool]
  | some window =>
      by_cases h : softLimit window <
          m.estimateContextTokens (requestRows m summary selected.flatten limit excerpt)
      · simp [Except.isOk, Except.toBool, h]
      · simp [Except.isOk, Except.toBool, h, not_lt.mp h]

/-- **What fits with older groups fits without them.** -/
theorem fits_of_isSuffix (hgrows : GrowsWithSource m) {short : List (List Message)}
    (h : short <:+ selected) (hfits : fits m summary limit excerpt selected = true) :
    fits m summary limit excerpt short = true := by
  obtain ⟨older, rfl⟩ := h
  obtain ⟨window, hwindow, hle⟩ := fits_eq_true.mp hfits
  rw [List.flatten_append] at hle
  exact fits_eq_true.mpr ⟨window, hwindow, le_trans (hgrows _ _ _ _ _) hle⟩

/-- **For one pair, the longest suffix that fits is taken.** -/
theorem fitPair_eq (hgrows : GrowsWithSource m) (groups : List (List Message)) :
    fitPair (fits m summary limit excerpt) groups =
      (suffixes groups).find? (fits m summary limit excerpt) := by
  rw [fitPair, suffixes]
  cases hlast : groups.getLast? with
  | none =>
      by_cases h : fits m summary limit excerpt [] = true
      · simp [h]
      · simp [h]
  | some last =>
      have hmono : ∀ j k, 1 ≤ j → j ≤ k → fits m summary limit excerpt (lastN k groups) = true →
          fits m summary limit excerpt (lastN j groups) = true :=
        fun j k _ hjk => fits_of_isSuffix hgrows (lastN_isSuffix_lastN hjk groups)
      have hdown := find?_of_isLast (@bisect_all _ groups.length hmono)
      dsimp only
      rw [List.find?_append, List.find?_map, List.find?_map]
      change _ = (((downFrom groups.length).find? fun k =>
        fits m summary limit excerpt (lastN k groups)).map (lastN · groups)).or _
      rw [hdown]
      generalize bisect (fun k => fits m summary limit excerpt (lastN k groups)) 1 _ 0 = size
      by_cases hsize : size = 0
      · rw [if_neg (not_not.mpr hsize), if_pos hsize]
        rfl
      · rw [if_pos hsize, if_neg hsize]
        rfl

/-! ### The choice made -/

theorem findSome?_pairs {α β γ : Type} (xs : List α) (ys : List β) (f : α × β → Option γ) :
    (xs.flatMap fun x => ys.map (x, ·)).findSome? f =
      xs.findSome? fun x => ys.findSome? fun y => f (x, y) := by
  induction xs with
  | nil => rfl
  | cons x xs ih =>
      rw [List.flatMap_cons, List.findSome?_append, ih, List.findSome?_map, List.findSome?_cons]
      change (List.findSome? (fun y => f (x, y)) ys).or _ = _
      cases ys.findSome? fun y => f (x, y) <;> rfl

/-- What one pair of a ratio and an excerpt length gives. -/
def chosenAt (m : BoundChatModel) (groups : List (List Message)) (previous : String) (limit : ℤ)
    (pair : Set.Icc (0 : ℚ) 1 × ℕ) : Option (String × List (List Message) × ℕ) :=
  ((suffixes groups).find? (fits m (summaryAt previous pair.1) limit pair.2)).map fun selected =>
    (summaryAt previous pair.1, selected, pair.2)

/-- **The first pair that lets a suffix in is chosen.** -/
theorem fitInputs_eq (hgrows : GrowsWithSource m) (groups : List (List Message))
    (previous : String) (limit : ℤ) :
    fitInputs m groups previous limit =
      (tries.findSome? (chosenAt m groups previous limit)).elim
        (.error ⟨"摘要提示加一条最短消息摘录已超过摘要模型容量"⟩) .ok := by
  have hpairs : (ratios.findSome? fun ratio => excerptChars.findSome? fun excerpt =>
      (fitPair (fits m (summaryAt previous ratio) limit excerpt) groups).map fun selected =>
        (summaryAt previous ratio, selected, excerpt)) =
      tries.findSome? (chosenAt m groups previous limit) := by
    rw [tries, findSome?_pairs]
    refine congrArg (List.findSome? · ratios) (funext fun ratio => ?_)
    refine congrArg (List.findSome? · excerptChars) (funext fun excerpt => ?_)
    rw [fitPair_eq hgrows, chosenAt]
  rw [fitInputs, hpairs]
  cases tries.findSome? (chosenAt m groups previous limit) <;> rfl

/-- What is to hold of a choice of inputs. -/
structure ChoosesLongest (m : BoundChatModel) (groups : List (List Message)) (previous : String)
    (limit : ℤ) : Prop where
  /-- The choice passes the limit, nothing fits at an earlier pair, and nothing longer at its
  own. -/
  chosen : ∀ summary selected excerpt,
    fitInputs m groups previous limit = .ok (summary, selected, excerpt) →
      (∃ accepted, request m summary selected limit excerpt = .ok accepted) ∧
      ∃ earlier ratio later longer shorter,
        tries = earlier ++ (ratio, excerpt) :: later ∧ summary = summaryAt previous ratio ∧
        (∀ pair ∈ earlier, ∀ other ∈ suffixes groups, ¬FitsAt m previous limit pair other) ∧
        suffixes groups = longer ++ selected :: shorter ∧
        ∀ other ∈ longer, ¬FitsAt m previous limit (ratio, excerpt) other
  /-- Where the call fails, nothing fits at any pair. -/
  failed : ∀ e, fitInputs m groups previous limit = .error e →
    ∀ pair ∈ tries, ∀ other ∈ suffixes groups, ¬FitsAt m previous limit pair other
  /-- What can be taken is just what is recent. -/
  recent : groups ≠ [] → ∀ selected, selected ∈ suffixes groups ↔ IsRecent groups selected

/-- **Summary inputs are the longest that fit**, for every model whose estimate grows with the
source. -/
theorem fitInputs_maximal (m : BoundChatModel) (hgrows : GrowsWithSource m)
    (groups : List (List Message)) (previous : String) (limit : ℤ) :
    ChoosesLongest m groups previous limit := by
  have hnone : ∀ pair : Set.Icc (0 : ℚ) 1 × ℕ, chosenAt m groups previous limit pair = none →
      ∀ other ∈ suffixes groups, ¬FitsAt m previous limit pair other := by
    intro pair h other hother
    rw [chosenAt, Option.map_eq_none_iff] at h
    exact List.find?_eq_none.mp h other hother
  refine ⟨fun summary selected excerpt h => ?_, fun e h pair hpair => ?_, fun hne selected =>
    ⟨isRecent_of_mem_suffixes hne, mem_suffixes_of_isRecent⟩⟩
  · rw [fitInputs_eq hgrows] at h
    cases hfound : tries.findSome? (chosenAt m groups previous limit) with
    | none => rw [hfound] at h; cases h
    | some found =>
        rw [hfound] at h
        obtain rfl := Except.ok.inj h
        obtain ⟨earlier, pair, later, htries, hchosen, hearlier⟩ :=
          List.findSome?_eq_some_iff.mp hfound
        obtain ⟨taken, hfind, hpair⟩ := Option.map_eq_some_iff.mp hchosen
        cases hpair
        obtain ⟨hfits, longer, shorter, hsuffixes, hlonger⟩ :=
          List.find?_eq_some_iff_append.mp hfind
        refine ⟨?_, earlier, pair.1, later, longer, shorter, htries, rfl,
          fun other hother => hnone other (hearlier other hother), hsuffixes,
          fun other hother => ?_⟩
        · rw [fits] at hfits
          cases hrequest : request m (summaryAt previous pair.1) selected limit pair.2 with
          | ok accepted => exact ⟨accepted, rfl⟩
          | error e => rw [hrequest] at hfits; cases hfits
        · have hnot := hlonger other hother
          rw [Bool.not_eq_true'] at hnot
          rw [FitsAt, hnot]
          exact Bool.false_ne_true
  · rw [fitInputs_eq hgrows] at h
    cases hfound : tries.findSome? (chosenAt m groups previous limit) with
    | none => exact hnone pair (List.findSome?_eq_none_iff.mp hfound pair hpair)
    | some found => rw [hfound] at h; cases h

/-! ### The estimate of the drivers -/

/-- `message_size` of `plugins/models/contract.py`, on rows whose content is a text. -/
def messageSize (message : Json) : ℕ :=
  (match message.get? "content" with
    | some (.str text) => text.length
    | _ => 0) +
  (Json.obj ((mappingFields message).filter (·.1 ≠ "content"))).dumps.length

/-- `estimate_context_tokens` of the drivers that divide the characters. -/
def estimateTokens (charsPerToken : ℕ) (rows : List Json) : ℤ :=
  max 1 ((rows.map messageSize).sum / charsPerToken : ℕ)

theorem messageSize_row (text : String) :
    messageSize (.obj [("role", .str "user"), ("content", .str text)]) =
      text.length + (Json.obj [("role", .str "user")]).dumps.length :=
  rfl

theorem length_itemsTail_append (items more : List Json) :
    (Json.itemsTail more).length ≤ (Json.itemsTail (items ++ more)).length := by
  induction items with
  | nil => exact le_rfl
  | cons item items ih =>
      rw [List.cons_append, Json.itemsTail, List.length_cons, List.length_append]
      omega

theorem length_dumps_append (items more : List Json) :
    (Json.arr more).dumps.length ≤ (Json.arr (items ++ more)).dumps.length := by
  rw [Json.dumps, Json.dumps, String.length_ofList, String.length_ofList]
  cases items with
  | nil => exact le_rfl
  | cons item items =>
      have htail := length_itemsTail_append items more
      cases more with
      | nil =>
          rw [List.append_nil, Json.itemsTail, List.length_singleton] at htail
          rw [List.append_nil, Json.chars, Json.chars]
          simp only [List.length_cons, List.length_append, List.length_nil]
          omega
      | cons next more =>
          rw [List.cons_append, Json.chars, Json.chars, List.length_cons, List.length_cons,
            List.length_append, List.length_append]
          rw [Json.itemsTail, List.length_cons, List.length_append] at htail
          omega

/-- **The estimate of these drivers grows with the source.** -/
theorem growsWithSource_estimateTokens (window maximum : Option ℤ) (charsPerToken : ℕ) :
    GrowsWithSource ⟨window, maximum, estimateTokens charsPerToken⟩ := by
  intro summary limit excerpt older newer
  have hsource : (sourceText newer (some excerpt)).length ≤
      (sourceText (older ++ newer) (some excerpt)).length := by
    rw [sourceText, sourceText, List.map_append]
    exact length_dumps_append _ _
  have hsize : ((requestRows ⟨window, maximum, estimateTokens charsPerToken⟩ summary newer limit
      excerpt).map messageSize).sum ≤ ((requestRows ⟨window, maximum, estimateTokens charsPerToken⟩
        summary (older ++ newer) limit excerpt).map messageSize).sum := by
    rw [requestRows, requestRows, List.map_singleton, List.map_singleton, List.sum_singleton,
      List.sum_singleton, messageSize_row, messageSize_row]
    simp only [String.length_append]
    exact Nat.add_le_add_right (Nat.add_le_add_left hsource _) _
  exact max_le_max le_rfl (Int.ofNat_le.mpr (Nat.div_le_div_right hsize))

/-- A question. -/
def question : Message :=
  ⟨"question", "session", 0, ⟨"2026-01-01T00:00:00+00:00"⟩, "user", "chat", .input ⟨[]⟩,
    Metadata.empty, by decide, by simp⟩

/-- The choice for one question, by a driver with four characters a token. -/
theorem fitInputs_maximal_question :
    ChoosesLongest ⟨some 200000, some 8192, estimateTokens 4⟩ [[question]] "" 800 :=
  fitInputs_maximal _ (growsWithSource_estimateTokens _ _ _) _ _ _

end Kirakira.Compaction
