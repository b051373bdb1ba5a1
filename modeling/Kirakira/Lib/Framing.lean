import Mathlib.Data.List.Basic
import Mathlib.Algebra.Order.Ring.Nat

/-!
# Framed Byte Streams

A stream of bytes that carries frames: a header of one width, which says how long the payload
after it is, and the payload. A **line** is one direction of a connection: what is written goes
to the wire, arrives in pieces of any size, and is read as a header and then a payload.

A line keeps what was written to it and what was read from it; no operation looks at either.

* `ofBytes_toBytes` — a number that fits in its width is read back.
* `Line.Holds` — the frames that are unread: their bytes are what is buffered and on the wire.
* `Line.Holds.exact` — however the bytes are split, what was read is what was written, in order,
  no header is refused, and when all has arrived all can be read.
-/

namespace Framing

/-! ### Big-endian numbers -/

/-- The lowest bytes of a number, the highest of them first. -/
def toBytes : ℕ → ℕ → List UInt8
  | 0, _ => []
  | width + 1, n => toBytes width (n / 256) ++ [UInt8.ofNat n]

/-- The number with these bytes, the highest first. -/
def ofBytes (bytes : List UInt8) : ℕ :=
  bytes.foldl (fun n b => n * 256 + b.toNat) 0

@[simp]
theorem length_toBytes (width n : ℕ) : (toBytes width n).length = width := by
  induction width generalizing n with
  | zero => rfl
  | succ width ih => rw [toBytes, List.length_append, ih, List.length_singleton]

/-- The last byte counts once, and those before it count 256 times. -/
theorem ofBytes_concat (bytes : List UInt8) (b : UInt8) :
    ofBytes (bytes ++ [b]) = ofBytes bytes * 256 + b.toNat := by
  rw [ofBytes, List.foldl_append]
  rfl

/-- **A number that fits in its width is read back.** -/
theorem ofBytes_toBytes {width n : ℕ} (h : n < Nat.pow 256 width) :
    ofBytes (toBytes width n) = n := by
  induction width generalizing n with
  | zero =>
      have hn : n = 0 := Nat.lt_one_iff.mp h
      rw [hn]
      rfl
  | succ width ih =>
      have hdiv : n / 256 < Nat.pow 256 width := Nat.div_lt_of_lt_mul ((Nat.mul_comm ..) ▸ h)
      have hlast : (UInt8.ofNat n).toNat = n % 256 := UInt8.toNat_ofNat'
      rw [toBytes, ofBytes_concat, ih hdiv, hlast, Nat.mul_comm]
      exact Nat.div_add_mod n 256

/-! ### Frames -/

/-- A format of frames: how headers are written and read, and how long the payload is that a
header announces. A reader may refuse a header, but no valid one. -/
structure Format (η ε : Type) where
  width : ℕ
  encode : η → List UInt8
  decode : List UInt8 → Except ε η
  size : η → ℕ
  Valid : η → Prop
  width_pos : 0 < width
  length_encode : ∀ h, (encode h).length = width
  decode_encode : ∀ h, Valid h → decode (encode h) = .ok h

variable {η ε : Type}

/-- A frame: a valid header, and the payload that it announces. -/
structure Frame (F : Format η ε) where
  header : η
  payload : List UInt8
  size_eq : F.size header = payload.length
  valid : F.Valid header

namespace Frame

variable {F : Format η ε}

/-- What is written of a frame, in segments; an empty payload is none. -/
def segments (f : Frame F) : List (List UInt8) :=
  if f.payload.isEmpty then [F.encode f.header] else [F.encode f.header, f.payload]

/-- The bytes of a frame. -/
def bytes (f : Frame F) : List UInt8 :=
  f.segments.flatten

/-- What a reader makes of a frame. -/
def raw (f : Frame F) : η × List UInt8 :=
  (f.header, f.payload)

theorem bytes_eq (f : Frame F) : f.bytes = F.encode f.header ++ f.payload := by
  unfold bytes segments
  split
  · next h =>
      rw [List.isEmpty_iff.mp h, List.append_nil]
      exact List.append_nil _
  · exact congrArg (F.encode f.header ++ ·) (List.append_nil f.payload)

theorem bytes_ne_nil (f : Frame F) : f.bytes ≠ [] := by
  intro h
  have hlength := congrArg List.length h
  rw [bytes_eq, List.length_append, F.length_encode, List.length_nil] at hlength
  have hpos := F.width_pos
  omega

end Frame

/-! ### Lines -/

/-- One direction of a connection. -/
structure Line (F : Format η ε) where
  /-- What was written and has not arrived. -/
  wire : List UInt8
  /-- What has arrived and was not read. -/
  buffer : List UInt8
  /-- The header that was read, where its payload was not. -/
  header : Option η
  /-- Whether the writer is closed. -/
  closed : Bool
  written : List (η × List UInt8)
  read : List (η × List UInt8)

namespace Line

variable {F : Format η ε}

/-- A line to which nothing was written. -/
def fresh (F : Format η ε) : Line F :=
  ⟨[], [], none, false, [], []⟩

/-- A frame is written, unless the writer is closed. -/
def write (l : Line F) (f : Frame F) : Line F :=
  if l.closed then l
  else { l with wire := l.wire ++ f.segments.flatten, written := l.written ++ [f.raw] }

/-- The writer is closed. -/
def close (l : Line F) : Line F :=
  { l with closed := true }

/-- Some of the bytes on the wire arrive. -/
def arrive (l : Line F) (n : ℕ) : Line F :=
  { l with wire := l.wire.drop n, buffer := l.buffer ++ l.wire.take n }

/-- A header is read, where all of it has arrived; it may be refused. -/
def readHeader (l : Line F) : Option (Except ε (Line F)) :=
  if l.header.isNone ∧ F.width ≤ l.buffer.length then
    some ((F.decode (l.buffer.take F.width)).map fun h =>
      { l with buffer := l.buffer.drop F.width, header := some h })
  else none

/-- The payload after a header is read, where all of it has arrived. -/
def readPayload (l : Line F) : Option ((η × List UInt8) × Line F) :=
  l.header.bind fun h =>
    if F.size h ≤ l.buffer.length then
      let frame := (h, l.buffer.take (F.size h))
      some (frame, { l with
        buffer := l.buffer.drop (F.size h)
        header := none
        read := l.read ++ [frame] })
    else none

/-- The bytes of the header that was read. -/
def started (l : Line F) : List UInt8 :=
  (l.header.map F.encode).getD []

/-- **The frames that are unread**: their bytes are what was not read, and those of the header. -/
structure Holds (l : Line F) (queue : List (Frame F)) : Prop where
  bytes : l.started ++ (l.buffer ++ l.wire) = queue.flatMap Frame.bytes
  header : ∀ h, l.header = some h → ∃ f rest, queue = f :: rest ∧ f.header = h
  written : l.written = l.read ++ queue.map Frame.raw

variable {l l' : Line F} {queue : List (Frame F)}

theorem holds_fresh (F : Format η ε) : (fresh F).Holds [] where
  bytes := rfl
  header h hh := by cases hh
  written := rfl

theorem Holds.write (h : l.Holds queue) (f : Frame F) : ∃ queue', (l.write f).Holds queue' := by
  unfold Line.write
  split
  · exact ⟨queue, h⟩
  · refine ⟨queue ++ [f], ?_, fun hd hhd => ?_, ?_⟩
    · change l.started ++ (l.buffer ++ (l.wire ++ f.bytes)) = _
      rw [List.flatMap_append, ← h.bytes, List.flatMap_singleton]
      simp only [List.append_assoc]
    · obtain ⟨g, rest, rfl, hg⟩ := h.header hd hhd
      exact ⟨g, rest ++ [f], rfl, hg⟩
    · change l.written ++ [f.raw] = l.read ++ (queue ++ [f]).map Frame.raw
      rw [h.written, List.map_append, List.append_assoc]
      rfl

theorem Holds.close (h : l.Holds queue) : l.close.Holds queue :=
  ⟨h.bytes, h.header, h.written⟩

/-- **Bytes that arrive** are held as before, however many they are. -/
theorem Holds.arrive (h : l.Holds queue) (n : ℕ) : (l.arrive n).Holds queue where
  bytes := by
    change l.started ++ ((l.buffer ++ l.wire.take n) ++ l.wire.drop n) = _
    rw [List.append_assoc, List.take_append_drop]
    exact h.bytes
  header := h.header
  written := h.written

/-- Where no header was read, the first unread frame begins the bytes that were not read. -/
theorem Holds.head (h : l.Holds queue) (hnone : l.header = none) :
    l.buffer ++ l.wire = queue.flatMap Frame.bytes := by
  have hbytes := h.bytes
  rw [started, hnone] at hbytes
  exact hbytes

theorem Holds.exists_head (h : l.Holds queue) (hnone : l.header = none) (hbuffer : l.buffer ≠ []) :
    ∃ f rest, queue = f :: rest := by
  have hhead := h.head hnone
  cases queue with
  | nil => exact absurd (List.append_eq_nil_iff.mp hhead).1 hbuffer
  | cons f rest => exact ⟨f, rest, rfl⟩

theorem take_bytes {bytes wire : List UInt8} {f : Frame F} {rest : List UInt8}
    (h : bytes ++ wire = f.bytes ++ rest) (hle : F.width ≤ bytes.length) :
    bytes.take F.width = F.encode f.header ∧
      bytes.drop F.width ++ wire = f.payload ++ rest := by
  rw [f.bytes_eq, List.append_assoc] at h
  have htake := congrArg (List.take F.width) h
  have hdrop := congrArg (List.drop F.width) h
  rw [List.take_append_of_le_length hle] at htake
  rw [List.drop_append_of_le_length hle] at hdrop
  refine ⟨htake.trans ?_, hdrop.trans ?_⟩
  · exact List.take_left' (F.length_encode _)
  · exact List.drop_left' (F.length_encode _)

/-- **A header that is read** is the one of the first unread frame; it is not refused. -/
theorem Holds.readHeader (h : l.Holds queue) {r : Except ε (Line F)}
    (hr : l.readHeader = some r) : ∃ l', r = .ok l' ∧ l'.Holds queue := by
  unfold Line.readHeader at hr
  obtain ⟨hcond, hr⟩ | ⟨-, ⟨⟩⟩ := ite_eq_iff.mp hr
  obtain ⟨hnone, hle⟩ := hcond
  have hnone := Option.isNone_iff_eq_none.mp hnone
  have hbuffer : l.buffer ≠ [] := by
    rintro heq
    rw [heq] at hle
    exact absurd F.width_pos (Nat.not_lt.mpr hle)
  obtain ⟨f, rest, rfl⟩ := h.exists_head hnone hbuffer
  have hhead := h.head hnone
  rw [List.flatMap_cons] at hhead
  obtain ⟨htake, hdrop⟩ := take_bytes hhead hle
  rw [htake, F.decode_encode _ f.valid] at hr
  refine ⟨_, (Option.some.inj hr).symm, ?_, ?_, h.written⟩
  · change F.encode f.header ++ (l.buffer.drop F.width ++ l.wire) = _
    rw [hdrop, List.flatMap_cons, f.bytes_eq, List.append_assoc]
  · intro hd hhd
    exact ⟨f, rest, rfl, Option.some.inj hhd⟩

/-- **A payload that is read** is, with its header, the first unread frame. -/
theorem Holds.readPayload (h : l.Holds queue) {frame : η × List UInt8}
    (hr : l.readPayload = some (frame, l')) :
    ∃ f rest, queue = f :: rest ∧ frame = f.raw ∧ l'.written = l.written ∧
      l'.read = l.read ++ [frame] ∧ l'.Holds rest := by
  obtain ⟨hd, hhd, hr⟩ := Option.bind_eq_some_iff.mp hr
  obtain ⟨f, rest, rfl, rfl⟩ := h.header hd hhd
  have hbytes := h.bytes
  rw [started, hhd, List.flatMap_cons, f.bytes_eq, List.append_assoc] at hbytes
  have hrest := List.append_cancel_left hbytes
  obtain ⟨hle, hr⟩ | ⟨-, ⟨⟩⟩ := ite_eq_iff.mp hr
  obtain ⟨rfl, rfl⟩ := Prod.mk.inj (Option.some.inj hr)
  rw [f.size_eq] at hle ⊢
  have htake := congrArg (List.take f.payload.length) hrest
  have hdrop := congrArg (List.drop f.payload.length) hrest
  rw [List.take_append_of_le_length hle, List.take_left] at htake
  rw [List.drop_append_of_le_length hle, List.drop_left] at hdrop
  refine ⟨f, rest, rfl, by rw [htake]; rfl, rfl, rfl, hdrop, fun _ hh => (by cases hh), ?_⟩
  change l.written = (l.read ++ [_]) ++ rest.map Frame.raw
  rw [h.written, htake, List.append_assoc]
  rfl

theorem readHeader_history (h : l.readHeader = some (.ok l')) :
    l'.written = l.written ∧ l'.read = l.read := by
  unfold readHeader at h
  split at h
  · obtain ⟨hd, -, rfl⟩ : ∃ hd, F.decode (l.buffer.take F.width) = .ok hd ∧
        { l with buffer := l.buffer.drop F.width, header := some hd } = l' := by
      cases hdecode : F.decode (l.buffer.take F.width) with
      | error error =>
          rw [hdecode] at h
          cases h
      | ok hd =>
          rw [hdecode] at h
          exact ⟨hd, rfl, Except.ok.inj (Option.some.inj h)⟩
    exact ⟨rfl, rfl⟩
  · cases h

/-- **A line is exact**: what was read is what was written, in order; no header is refused; when
nothing is left all was read; and when all has arrived the reader can go on. -/
structure Exact (l : Line F) : Prop where
  ordered : l.read <+: l.written
  accepted : ∀ r, l.readHeader = some r → ∃ l', r = .ok l'
  complete : l.wire = [] → l.buffer = [] → l.header = none → l.read = l.written
  proceeds : l.wire = [] → l.read ≠ l.written →
    l.readHeader.isSome ∨ l.readPayload.isSome

/-- **However the bytes are split**, a line is exact. -/
theorem Holds.exact (h : l.Holds queue) : l.Exact where
  ordered := ⟨queue.map Frame.raw, h.written.symm⟩
  accepted r hr := by
    obtain ⟨l', hl', -⟩ := h.readHeader hr
    exact ⟨l', hl'⟩
  complete hwire hbuffer hnone := by
    have hhead := h.head hnone
    rw [hwire, hbuffer] at hhead
    cases queue with
    | nil => exact (h.written.trans (List.append_nil _)).symm
    | cons f rest => exact absurd (List.append_eq_nil_iff.mp hhead.symm).1 f.bytes_ne_nil
  proceeds hwire hne := by
    cases hhd : l.header with
    | none =>
        left
        have hhead := h.head hhd
        rw [hwire, List.append_nil] at hhead
        cases queue with
        | nil => exact absurd (h.written.trans (List.append_nil _)).symm hne
        | cons f rest =>
            have hle : F.width ≤ l.buffer.length := by
              rw [hhead, List.flatMap_cons, f.bytes_eq, List.append_assoc, List.length_append,
                F.length_encode]
              exact Nat.le_add_right ..
            rw [Line.readHeader, if_pos ⟨Option.isNone_iff_eq_none.mpr hhd, hle⟩]
            rfl
    | some hd =>
        right
        obtain ⟨f, rest, rfl, rfl⟩ := h.header hd hhd
        have hbytes := h.bytes
        rw [started, hhd, List.flatMap_cons, f.bytes_eq, List.append_assoc, hwire,
          List.append_nil] at hbytes
        have hrest := List.append_cancel_left hbytes
        have hle : F.size f.header ≤ l.buffer.length := by
          rw [f.size_eq, hrest, List.length_append]
          exact Nat.le_add_right ..
        rw [Line.readPayload, hhd, Option.bind_some, if_pos hle]
        rfl

end Line

end Framing
