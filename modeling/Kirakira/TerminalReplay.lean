import Mathlib.Data.Int.Notation
import Mathlib.Data.List.Basic
import Mathlib.Tactic.SplitIfs
import Kirakira.Lib.Transition

/-!
# Terminal Replay

The output of an interactive terminal, `_Terminal` and `read_terminal` of
`plugins/host_execution/terminals.py`: the last bytes are kept, under their offsets in what the
terminal has produced, and a reader reads on at the end of what it got before.

* Reading changes nothing about a terminal, so one reader stands for all of them.
* `World` has what was produced beside the terminal, and the reads that came back.

## Main results

* `Terminal.Suffix.append` — what is kept is the end of what was produced.
* `Terminal.Suffix.slice` — what a read of a terminal returns.
* `reads_replay` — **a reader gets what was produced**, over every run.
-/

namespace Kirakira.Terminals

/-! ### The source -/

/-- `BUFFER_BYTES`. -/
def bufferBytes : ℕ :=
  256 * 1024

/-- `READ_CHUNK_BYTES`. -/
def readChunkBytes : ℕ :=
  64 * 1024

/-- `_Terminal`, as far as it is replayed. -/
structure Terminal where
  buffer : List UInt8 := []
  base : ℕ := 0
  exitCode : Option ℤ := none
  exited : Bool := false

/-- `TerminalOutput`. -/
structure TerminalOutput where
  data : List UInt8
  offset : ℕ
  exitCode : Option ℤ
  exited : Bool

/-- Where the output ends. -/
def TerminalOutput.stop (output : TerminalOutput) : ℕ :=
  output.offset + output.data.length

theorem TerminalOutput.le_stop (output : TerminalOutput) : output.offset ≤ output.stop :=
  Nat.le_add_right _ _

/-- `buffer.find(b"\n", start, stop)`. -/
def findNewline (buffer : List UInt8) (start stop : ℕ) : Option ℕ :=
  (((buffer.take stop).drop start).findIdx? (· == 10)).map (start + ·)

/-- `_Terminal.append`. -/
def Terminal.append (t : Terminal) (chunk : List UInt8) : Terminal :=
  let buffer := t.buffer ++ chunk
  let excess := buffer.length - bufferBytes
  if 0 < excess then
    let cut :=
      match findNewline buffer excess (excess + 4096) with
      | none => excess
      | some newline => newline + 1
    { t with buffer := buffer.drop cut, base := t.base + cut }
  else { t with buffer }

/-- `_Terminal.slice`. -/
def Terminal.slice (t : Terminal) (offset : ℕ) : TerminalOutput :=
  let start := min (max offset t.base) (t.base + t.buffer.length)
  let index := start - t.base
  let data := (t.buffer.drop index).take readChunkBytes
  let done := t.exited && decide (t.buffer.length ≤ index + data.length)
  ⟨data, start, if done then t.exitCode else none, done⟩

/-- The end of `_pump`. -/
def Terminal.exit (t : Terminal) (code : Option ℤ) : Terminal :=
  { t with exitCode := code, exited := true }

/-! ### What is kept -/

/-- What a terminal keeps is the end of what was produced. -/
structure Terminal.Suffix (t : Terminal) (produced : List UInt8) : Prop where
  buffer : t.buffer = produced.drop t.base
  base : t.base ≤ produced.length
  bound : t.buffer.length ≤ bufferBytes

variable {t : Terminal} {produced : List UInt8}

theorem Terminal.Suffix.total (h : t.Suffix produced) :
    t.base + t.buffer.length = produced.length := by
  have hbase := h.base
  rw [h.buffer, List.length_drop]
  omega

theorem findNewline_bounds {buffer : List UInt8} {start stop i : ℕ}
    (h : findNewline buffer start stop = some i) : start ≤ i ∧ i < buffer.length := by
  obtain ⟨j, hj, rfl⟩ := Option.map_eq_some_iff.mp h
  have hlt := (List.findIdx?_eq_some_iff_findIdx_eq.mp hj).1
  rw [List.length_drop, List.length_take] at hlt
  omega

theorem Terminal.append_eq (t : Terminal) (chunk : List UInt8) :
    ∃ cut, t.append chunk =
        { t with buffer := (t.buffer ++ chunk).drop cut, base := t.base + cut } ∧
      (t.buffer ++ chunk).length - bufferBytes ≤ cut ∧ cut ≤ (t.buffer ++ chunk).length := by
  rw [Terminal.append]
  dsimp only
  split_ifs with hexcess
  · refine ⟨_, rfl, ?_⟩
    cases hfind : findNewline (t.buffer ++ chunk) ((t.buffer ++ chunk).length - bufferBytes)
        ((t.buffer ++ chunk).length - bufferBytes + 4096) with
    | none => exact ⟨Nat.le_refl _, Nat.sub_le _ _⟩
    | some newline =>
        obtain ⟨hle, hlt⟩ := findNewline_bounds hfind
        exact ⟨Nat.le_succ_of_le hle, hlt⟩
  · exact ⟨0, rfl, by omega, Nat.zero_le _⟩

/-- **What is kept of more output** is the end of all of it. -/
theorem Terminal.Suffix.append (h : t.Suffix produced) (chunk : List UInt8) :
    (t.append chunk).Suffix (produced ++ chunk) := by
  obtain ⟨cut, happend, hexcess, hcut⟩ := t.append_eq chunk
  have hbuffer : t.buffer ++ chunk = (produced ++ chunk).drop t.base := by
    rw [List.drop_append_of_le_length h.base, ← h.buffer]
  have hlength := congrArg List.length hbuffer
  rw [List.length_drop] at hlength
  rw [happend]
  refine ⟨?_, ?_, ?_⟩
  · dsimp only
    rw [hbuffer, List.drop_drop]
  · have hbase := h.base
    have hboth : (produced ++ chunk).length = produced.length + chunk.length :=
      List.length_append
    dsimp only
    omega
  · dsimp only
    rw [List.length_drop]
    omega

/-- **What a read returns.** -/
theorem Terminal.Suffix.slice (h : t.Suffix produced) (offset : ℕ) :
    (t.slice offset).data =
        (produced.drop (t.slice offset).offset).take (t.slice offset).data.length ∧
      (t.slice offset).stop ≤ produced.length ∧
      min offset produced.length ≤ (t.slice offset).offset ∧
      (offset < (t.slice offset).offset → (t.slice offset).offset = t.base) ∧
      ((t.slice offset).exited = true → t.exited = true ∧
        (t.slice offset).stop = produced.length) := by
  have htotal := h.total
  have hoffset : (t.slice offset).offset
      = min (max offset t.base) (t.base + t.buffer.length) := rfl
  have hdata : (t.slice offset).data =
      (t.buffer.drop ((t.slice offset).offset - t.base)).take readChunkBytes := rfl
  have hdone : (t.slice offset).exited = (t.exited && decide
      (t.buffer.length ≤ (t.slice offset).offset - t.base + (t.slice offset).data.length)) := rfl
  have hlength := congrArg List.length hdata
  rw [List.length_take, List.length_drop] at hlength
  rw [TerminalOutput.stop]
  generalize t.slice offset = output at *
  refine ⟨?_, by omega, by omega, by omega, fun hexited => ?_⟩
  · have hdrop : t.buffer.drop (output.offset - t.base) = produced.drop output.offset := by
      rw [h.buffer, List.drop_drop]
      congr 1
      omega
    rw [hdrop] at hdata
    rw [hdata, List.length_take]
    exact List.take_eq_take_min
  · rw [hdone, Bool.and_eq_true, decide_eq_true_eq] at hexited
    exact ⟨hexited.1, by omega⟩

/-! ### Readers -/

/-- A read that came back, and how much had been produced by then. -/
structure Read where
  requested : ℕ
  output : TerminalOutput
  produced : ℕ

/-- A terminal, what it has produced, and a reader of it with its reads. -/
structure World where
  terminal : Terminal := {}
  produced : List UInt8 := []
  /-- Output came in after the exit; `_pump` cancels its reader before the exit. -/
  late : Bool := false
  offset : ℕ
  waiting : Bool := false
  reads : List Read := []

/-- What happens to a terminal and to a reader. -/
inductive Event where
  | append (chunk : List UInt8)
  | exit (code : Option ℤ)
  | read (wait : Bool)
  | wake

/-- `read_terminal` returns, and the reader reads on at the end of the output. -/
def World.return (w : World) : World :=
  let output := w.terminal.slice w.offset
  { w with
    offset := output.stop
    waiting := false
    reads := w.reads ++ [⟨w.offset, output, w.produced.length⟩] }

/-- What an event leads to. -/
def World.next (w : World) : Event → Option World
  | .append chunk =>
      some { w with
        terminal := w.terminal.append chunk
        produced := w.produced ++ chunk
        late := w.late || w.terminal.exited }
  | .exit code => some { w with terminal := w.terminal.exit code }
  | .read wait =>
      if w.waiting then none
      else
        let output := w.terminal.slice w.offset
        -- without output and without an exit the reader waits once
        if output.data ≠ [] ∨ output.exited = true ∨ wait = false then some w.return
        else some { w with waiting := true }
  | .wake => if w.waiting then some w.return else none

/-- A terminal and a reader that starts anywhere. -/
def system : Transition.System World Event where
  init w := ∃ offset, w = { offset }
  step w e w' := w.next e = some w'

/-! ### Runs -/

/-- What holds of a terminal and a reader at any time. -/
structure World.Inv (w : World) : Prop where
  suffix : w.terminal.Suffix w.produced
  data : ∀ r ∈ w.reads, r.output.data =
    (w.produced.drop r.output.offset).take r.output.data.length
  stop : ∀ r ∈ w.reads, r.output.stop ≤ w.produced.length ∧ r.output.stop ≤ w.offset
  ordered : w.reads.Pairwise fun r r' => r.output.stop ≤ r'.output.offset
  gap : ∀ r ∈ w.reads, r.requested < r.output.offset → r.output.offset ≤ w.terminal.base
  exited : ∀ r ∈ w.reads, r.output.exited = true → r.output.stop = r.produced
  final : ∀ r ∈ w.reads, r.output.exited = true → w.terminal.exited = true ∧
    (w.late = false → r.output.stop = w.produced.length)

theorem take_drop_append {data more : List UInt8} {offset : ℕ} {piece : List UInt8}
    (h : piece = (data.drop offset).take piece.length) (hstop : offset + piece.length ≤ data.length) :
    piece = ((data ++ more).drop offset).take piece.length := by
  rw [List.drop_append_of_le_length (by omega), List.take_append_of_le_length]
  · exact h
  · rw [List.length_drop]
    omega

variable {w : World}

theorem World.Inv.append (h : w.Inv) (chunk : List UInt8) :
    World.Inv { w with
      terminal := w.terminal.append chunk
      produced := w.produced ++ chunk
      late := w.late || w.terminal.exited } := by
  obtain ⟨cut, happend, -, -⟩ := w.terminal.append_eq chunk
  have hlength : (w.produced ++ chunk).length = w.produced.length + chunk.length :=
    List.length_append
  have hsuffix := h.suffix.append chunk
  refine ⟨?_, fun r hr => ?_, fun r hr => ?_, h.ordered, fun r hr hgap => ?_, h.exited,
    fun r hr hexited => ?_⟩
  · dsimp only
    exact hsuffix
  · exact take_drop_append (h.data r hr) (h.stop r hr).1
  · have hstop := h.stop r hr
    dsimp only
    omega
  · have hbase := h.gap r hr hgap
    dsimp only
    rw [happend]
    exact Nat.le_trans hbase (Nat.le_add_right _ _)
  · have hfinal := (h.final r hr hexited).1
    dsimp only
    rw [happend, hfinal, Bool.or_true]
    exact ⟨rfl, nofun⟩

theorem World.Inv.return (h : w.Inv) : w.return.Inv := by
  obtain ⟨hdata, hstop, hstart, hgap, hexited⟩ := h.suffix.slice w.offset
  have hmem : ∀ r ∈ w.return.reads,
      r ∈ w.reads ∨ r = ⟨w.offset, w.terminal.slice w.offset, w.produced.length⟩ := by
    intro r hr
    rcases List.mem_append.mp hr with hr | hr
    · exact .inl hr
    · exact .inr (List.mem_singleton.mp hr)
  -- The read starts where the reads before it have ended.
  have hbehind : ∀ r ∈ w.reads, r.output.stop ≤ (w.terminal.slice w.offset).offset := by
    intro r hr
    have := h.stop r hr
    omega
  refine ⟨h.suffix, fun r hr => ?_, fun r hr => ?_, ?_, fun r hr => ?_, fun r hr => ?_,
    fun r hr => ?_⟩
  · rcases hmem r hr with hr | rfl
    · exact h.data r hr
    · exact hdata
  · rcases hmem r hr with hr | rfl
    · exact ⟨(h.stop r hr).1, Nat.le_trans (hbehind r hr) (w.terminal.slice w.offset).le_stop⟩
    · exact ⟨hstop, Nat.le_refl _⟩
  · refine List.pairwise_append.mpr ⟨h.ordered, List.pairwise_singleton _ _, ?_⟩
    intro r hr r' hr'
    rw [List.mem_singleton.mp hr']
    exact hbehind r hr
  · rcases hmem r hr with hr | rfl
    · exact h.gap r hr
    · exact fun hlt => Nat.le_of_eq (hgap hlt)
  · rcases hmem r hr with hr | rfl
    · exact h.exited r hr
    · exact fun hend => (hexited hend).2
  · rcases hmem r hr with hr | rfl
    · exact h.final r hr
    · exact fun hend => ⟨(hexited hend).1, fun _ => (hexited hend).2⟩

theorem World.Inv.next {w' : World} (h : w.Inv) {e : Event} (hnext : w.next e = some w') :
    w'.Inv := by
  cases e with
  | append chunk =>
      obtain rfl := Option.some.inj hnext
      exact h.append chunk
  | exit code =>
      obtain rfl := Option.some.inj hnext
      exact ⟨⟨h.suffix.buffer, h.suffix.base, h.suffix.bound⟩, h.data, h.stop, h.ordered, h.gap,
        h.exited, fun r hr hend => ⟨rfl, (h.final r hr hend).2⟩⟩
  | read wait =>
      rw [World.next] at hnext
      dsimp only at hnext
      split_ifs at hnext
      · obtain rfl := Option.some.inj hnext
        exact h.return
      · obtain rfl := Option.some.inj hnext
        exact ⟨h.suffix, h.data, h.stop, h.ordered, h.gap, h.exited, h.final⟩
  | wake =>
      rw [World.next] at hnext
      split_ifs at hnext
      obtain rfl := Option.some.inj hnext
      exact h.return

theorem inv_of_reachable (h : system.Reachable w) : w.Inv := by
  refine h.invariant ?_ fun w e w' hw _ hstep => hw.next hstep
  rintro w ⟨offset, rfl⟩
  exact ⟨⟨rfl, Nat.le_refl 0, Nat.zero_le _⟩, nofun, nofun, .nil, nofun, nofun, nofun⟩

/-- **A reader gets what was produced.** What is kept is the end of what was produced; what a read
returns stands at its offset; reads go forward, and begin behind what was asked for only where that
is gone; the exit comes with the last of what was produced, or after it. -/
theorem reads_replay {w : World} (h : system.Reachable w) :
    (w.produced.drop w.terminal.base = w.terminal.buffer ∧
        w.terminal.base + w.terminal.buffer.length = w.produced.length ∧
        w.terminal.buffer.length ≤ bufferBytes) ∧
      (∀ r ∈ w.reads, r.output.data =
        (w.produced.drop r.output.offset).take r.output.data.length) ∧
      (w.reads.Pairwise fun r r' => r.output.stop ≤ r'.output.offset) ∧
      (∀ r ∈ w.reads, r.requested < r.output.offset → r.output.offset ≤ w.terminal.base) ∧
      ∀ r ∈ w.reads, r.output.exited = true → r.output.stop = r.produced ∧
        (w.late = false → r.output.stop = w.produced.length) := by
  have hw := inv_of_reachable h
  exact ⟨⟨hw.suffix.buffer.symm, hw.suffix.total, hw.suffix.bound⟩, hw.data, hw.ordered, hw.gap,
    fun r hr hend => ⟨hw.exited r hr hend, (hw.final r hr hend).2⟩⟩

/-- Two pieces of output, the first of which a reader has read, and then the exit. -/
def replayed : World where
  terminal := { buffer := [104, 105, 10], exitCode := some 0, exited := true }
  produced := [104, 105, 10]
  offset := 3
  reads := [⟨0, ⟨[104], 0, none, false⟩, 1⟩, ⟨1, ⟨[105, 10], 1, some 0, true⟩, 3⟩]

theorem reads_replay_replayed :
    replayed.reads.Pairwise fun r r' => r.output.stop ≤ r'.output.offset := by
  have hnext : [.append [104], .read true, .append [105, 10], .exit (some 0), .read true].foldlM
      World.next { offset := 0 } = some replayed := rfl
  have hrun : system.Run { offset := 0 } replayed :=
    .foldlM (fun _ _ _ h => h) (fun _ _ _ => trivial) hnext
  exact (reads_replay ⟨_, ⟨0, rfl⟩, hrun⟩).2.2.1

end Kirakira.Terminals
