import Jpgsync.Protocol.Fully
import Mathlib.Algebra.GroupWithZero.Nat
import Mathlib.Tactic.Common

/-!
# Protocol — Messages

A writer that calls `WriteExactly` for one message after the other and
closes its end, and a reader that calls `ReadExactly` for one length after
the other, with their calls on the stream in any order and of any size. The
reader gets the concatenation of the messages cut at its lengths: `cut`.
-/

namespace Jpgsync

/-- What `ReadExactly` returns for some lengths on a stream with `content`,
and what is then in the buffer. -/
def cut : List Nat → Bytes → List (Bool × Bytes)
  | [], _ => []
  | n :: lengths, content =>
      (decide (n ≤ content.length), content.take n) :: cut lengths (content.drop n)

/-- The lengths of the messages cut them out again. -/
theorem cut_lengths (messages : List Bytes) :
    cut (messages.map List.length) messages.flatten = messages.map fun m => (true, m) := by
  induction messages with
  | nil => rfl
  | cons m messages ih => simp [cut, ih]

/-- A writer and a reader. The first of `writing` and of `reading` is the
call under way. -/
structure Transfer where
  writing : List Bytes
  writeCount : Nat
  wrote : List Bool              -- what `WriteExactly` returned
  stream : Fifo UInt8
  reading : List Nat
  bytes : Bytes
  received : List (Bool × Bytes) -- what `ReadExactly` returned, with its buffer
deriving DecidableEq

namespace Transfer

def start (messages : List Bytes) (lengths : List Nat) : Transfer :=
  ⟨messages, 0, [], .empty, lengths, [], []⟩

inductive Act where
  | write (ret : Nat)
  | close
  | read (ret : Nat)
deriving DecidableEq

/-- A `write` of the message under way. -/
def writeStep (s : Transfer) (ret : Nat) : Option Transfer :=
  match s.writing with
  | [] => none
  | m :: messages =>
    (WriteFully.step ⟨m, s.writeCount, none⟩ s.stream ret).map fun r =>
      match r.1.returned with
      | none => { s with writeCount := r.1.writeCount, stream := r.2 }
      | some n =>
        { s with
          writing := messages
          writeCount := 0
          wrote := s.wrote ++ [decide (n = m.length)]
          stream := r.2 }

/-- A `read` of the message under way. -/
def readStep (s : Transfer) (ret : Nat) : Option Transfer :=
  match s.reading with
  | [] => none
  | n :: lengths =>
    (ReadFully.step ⟨n, s.bytes, none⟩ s.stream ret).map fun r =>
      match r.1.returned with
      | none => { s with bytes := r.1.bytes, stream := r.2 }
      | some k =>
        { s with
          reading := lengths
          bytes := []
          received := s.received ++ [(decide (k = n), r.1.bytes)]
          stream := r.2 }

def step (s : Transfer) : Act → Option Transfer
  | .write ret => s.writeStep ret
  | .close =>
    if s.writing = [] ∧ s.stream.closed = false then some { s with stream := s.stream.close }
    else none
  | .read ret => s.readStep ret

def system : StepSystem Transfer Act := ⟨step⟩

/-- Nothing is left to do. -/
def Finished (s : Transfer) : Prop := s.writing = [] ∧ s.stream.closed = true ∧ s.reading = []

/-- What is still to be written. -/
def unwritten (s : Transfer) : Bytes := s.writing.flatten.drop s.writeCount

/-- What the reader will still get. -/
def future (s : Transfer) : Bytes := s.bytes ++ s.stream.pending ++ s.unwritten

/-- **The invariant of a transfer.** -/
structure Sound (messages : List Bytes) (lengths : List Nat) (s : Transfer) : Prop where
  writeCount_le : s.writeCount ≤ (s.writing.head?.getD []).length
  wrote : s.wrote ++ s.writing.map (fun _ => true) = messages.map fun _ => true
  closed : s.stream.closed = true → s.writing = []
  bytes_le : s.bytes.length ≤ s.reading.head?.getD 0
  received : s.received ++ cut s.reading s.future = cut lengths messages.flatten

variable {messages : List Bytes} {lengths : List Nat} {s t : Transfer} {ret : Nat}

theorem sound_start (messages : List Bytes) (lengths : List Nat) :
    Sound messages lengths (start messages lengths) where
  writeCount_le := Nat.zero_le _
  wrote := rfl
  closed := by simp [start]
  bytes_le := Nat.zero_le _
  received := by simp [start, future, unwritten]

/-- How many calls there can still be. -/
def work (s : Transfer) : Nat :=
  (s.writing.flatten.length + s.writing.length - s.writeCount) +
    (s.reading.sum + s.reading.length - s.bytes.length) + (!s.stream.closed).toNat

theorem Sound.writeStep (h : Sound messages lengths s) (hst : s.writeStep ret = some t) :
    Sound messages lengths t ∧ t.work < s.work := by
  unfold Transfer.writeStep at hst
  split at hst
  · cases hst
  · rename_i m rest hwriting
    obtain ⟨⟨w, output⟩, hstep, heq⟩ := Option.map_eq_some_iff.mp hst
    have hle : s.writeCount ≤ m.length := by
      simpa [hwriting] using h.writeCount_le
    obtain ⟨hdata, hcount, -, hpending, hclosed, hcase⟩ := WriteFully.step_cases hle hstep
    dsimp only at hdata hpending hclosed hcase heq
    have hunwritten : s.unwritten = m.drop s.writeCount ++ rest.flatten := by
      rw [unwritten, hwriting, List.flatten_cons, List.drop_append_of_le_length hle]
    have hwrote := h.wrote
    have hend := h.closed
    have hreceived := h.received
    rw [hdata] at hpending hcount
    rcases hcase with ⟨hmore, hlt⟩ | ⟨hfull, hall⟩
    · rw [hmore] at heq
      cases heq
      refine ⟨⟨by simpa [hwriting] using hcount, hwrote, fun hc => hend (hclosed ▸ hc),
        h.bytes_le, ?_⟩, ?_⟩
      · have hfuture :
            future { s with writeCount := w.writeCount, stream := output } = s.future := by
          rw [future, future, hunwritten, unwritten, hwriting, List.flatten_cons,
            List.drop_append_of_le_length hcount, List.append_assoc, List.append_assoc,
            ← List.append_assoc output.pending, hpending, List.append_assoc]
        dsimp only
        rw [hfuture, hreceived]
      · simp only [work, hwriting, hclosed, List.flatten_cons, List.length_append, List.length_cons]
        omega
    · rw [hfull] at heq
      cases heq
      rw [hdata] at hall
      rw [hall, List.drop_length, List.append_nil] at hpending
      refine ⟨⟨Nat.zero_le _, ?_, fun hc => ?_, h.bytes_le, ?_⟩, ?_⟩
      · simpa [hwriting, hdata] using hwrote
      · have hnil := hend (hclosed ▸ hc)
        rw [hwriting] at hnil
        cases hnil
      · dsimp only [future, unwritten]
        rw [← hreceived, future, hunwritten, hpending, List.drop_zero]
        simp
      · simp only [work, hwriting, hclosed, List.flatten_cons, List.length_append, List.length_cons]
        omega

theorem Sound.readStep (h : Sound messages lengths s) (hst : s.readStep ret = some t) :
    Sound messages lengths t ∧ t.work < s.work := by
  unfold Transfer.readStep at hst
  split at hst
  · cases hst
  · rename_i n rest hreading
    obtain ⟨⟨r, input⟩, hstep, heq⟩ := Option.map_eq_some_iff.mp hst
    have hle : s.bytes.length ≤ n := by
      simpa [hreading] using h.bytes_le
    obtain ⟨hcount, -, hlen, hcons, -, hclosed, hcase⟩ := ReadFully.step_cases hle hstep
    dsimp only at hcount hlen hcons hclosed hcase heq
    rw [hcount] at hlen hcase
    have hend : input.closed = true → s.writing = [] := fun hc => h.closed (hclosed ▸ hc)
    have hfuture : s.future = r.bytes ++ (input.pending ++ s.unwritten) := by
      rw [future, ← hcons, List.append_assoc]
    have hreceived := h.received
    rw [hreading, cut, hfuture] at hreceived
    rcases hcase with ⟨hmore, hlt, -⟩ | ⟨hfull, hall⟩ | ⟨hended, hshort, hc, hempty⟩
    · rw [hmore] at heq
      cases heq
      refine ⟨⟨h.writeCount_le, h.wrote, hend, by simpa [hreading] using hlen, ?_⟩, ?_⟩
      · rw [← h.received, hfuture]
        simp [future, unwritten]
      · simp only [work, hreading, hclosed, List.sum_cons, List.length_cons]
        omega
    -- the buffer is full: the next length begins behind it
    · rw [hfull] at heq
      cases heq
      refine ⟨⟨h.writeCount_le, h.wrote, hend, Nat.zero_le _, ?_⟩, ?_⟩
      · rw [← hreceived]
        have htrue : n ≤ (r.bytes ++ (input.pending ++ s.unwritten)).length := by
          rw [List.length_append]
          omega
        rw [← hall] at htrue ⊢
        simp only [decide_true, List.append_assoc, List.singleton_append, htrue, List.take_left,
          List.drop_left]
        rfl
      · simp only [work, hreading, hclosed, List.sum_cons, List.length_cons, List.length_nil]
        omega
    -- the stream is over: nothing is left to be written either
    · rw [hended] at heq
      cases heq
      have hnil : s.writing = [] := hend hc
      have hunwritten : s.unwritten = [] := by simp [unwritten, hnil]
      refine ⟨⟨h.writeCount_le, h.wrote, hend, Nat.zero_le _, ?_⟩, ?_⟩
      · rw [← hreceived]
        have hfalse : ¬ n ≤ r.bytes.length := by omega
        have hne : ¬ r.bytes.length = n := by omega
        have htake : r.bytes.take n = r.bytes := List.take_of_length_le (Nat.le_of_lt hshort)
        have hdrop : r.bytes.drop n = [] := List.drop_of_length_le (Nat.le_of_lt hshort)
        simp [future, hempty, hunwritten, hfalse, hne, htake, hdrop]
        simp [unwritten, hnil]
      · simp only [work, hreading, hclosed, List.sum_cons, List.length_cons, List.length_nil]
        omega

/-- **Every step keeps the invariant**, and there is less to do. -/
theorem Sound.step {a : Act} (h : Sound messages lengths s) (hst : s.step a = some t) :
    Sound messages lengths t ∧ t.work < s.work := by
  cases a with
  | write ret => exact h.writeStep hst
  | close =>
      simp only [Transfer.step] at hst
      split at hst
      · rename_i hopen
        cases hst
        refine ⟨⟨h.writeCount_le, h.wrote, fun _ => hopen.1, h.bytes_le, h.received⟩, ?_⟩
        simp [work, hopen.2]
      · cases hst
  | read ret => exact h.readStep hst

/-- **No deadlock**: until both sides are through, one of them has a step. -/
theorem exists_step (hs : ¬ s.Finished) : ∃ a, (s.step a).isSome := by
  cases hwriting : s.writing with
  | cons m messages =>
      obtain ⟨ret, hret⟩ := WriteFully.exists_step (s := ⟨m, s.writeCount, none⟩) s.stream rfl
      exact ⟨.write ret, by simpa [step, writeStep, hwriting] using hret⟩
  | nil =>
      cases hclosed : s.stream.closed with
      | false => exact ⟨.close, by simp [step, hwriting, hclosed]⟩
      | true =>
          cases hreading : s.reading with
          | nil => exact absurd ⟨hwriting, hclosed, hreading⟩ hs
          | cons n lengths =>
              obtain ⟨ret, hret⟩ := ReadFully.exists_step (s := ⟨n, s.bytes, none⟩) rfl
                (Or.inr (Or.inl hclosed))
              exact ⟨.read ret, by simpa [step, readStep, hreading] using hret⟩

end Transfer

/-! ## The property itself -/

/-- **A transfer does not depend on how it is cut.** `ReadFully` returns
with the first bytes of its stream and consumes no others, and `WriteFully`
with its bytes appended, after at most one call for each byte and one more
and whatever the calls moved. So a writer of messages and a reader of
lengths, in any order and fragmentation, are through after a bounded number
of calls; every `WriteExactly` returns true, and what the calls of
`ReadExactly` return is the concatenation cut at the lengths, with false
exactly where it is too short; with the lengths of the messages these are
the messages. -/
theorem transfer_independent_of_fragmentation :
    (∀ (count : Nat) (content : Bytes) (rets : List Nat) (s : ReadFully × Fifo UInt8),
      ReadFully.system.exec (.start count, .closedOf content) rets = some s →
      rets.length ≤ count + 1 ∧
        (s.1.returned = none → ∃ ret, (ReadFully.system.step s ret).isSome) ∧
        ∀ n, s.1.returned = some n → n = min count content.length ∧
          s.1.bytes = content.take count ∧ s.2.pending = content.drop count) ∧
    (∀ (data : Bytes) (output : Fifo UInt8) (rets : List Nat) (s : WriteFully × Fifo UInt8),
      WriteFully.system.exec (.start data, output) rets = some s →
      rets.length ≤ data.length + 1 ∧
        (s.1.returned = none → ∃ ret, (WriteFully.system.step s ret).isSome) ∧
        ∀ n, s.1.returned = some n → n = data.length ∧ s.2.sent = output.sent ++ data) ∧
    (∀ (messages : List Bytes) (lengths : List Nat) (acts : List Transfer.Act) (s : Transfer),
      Transfer.system.exec (.start messages lengths) acts = some s →
      acts.length ≤ (messages.flatten.length + messages.length) +
          (lengths.sum + lengths.length) + 1 ∧
        (¬ s.Finished → ∃ a, (s.step a).isSome) ∧
        (∀ b ∈ s.wrote, b = true) ∧
        s.received <+: cut lengths messages.flatten ∧
        (s.reading = [] → s.received = cut lengths messages.flatten)) ∧
    ∀ messages : List Bytes,
      cut (messages.map List.length) messages.flatten = messages.map fun m => (true, m) := by
  refine ⟨fun _ _ _ _ => ReadFully.returns, fun _ _ _ _ => WriteFully.returns,
    fun messages lengths acts s h => ?_, cut_lengths⟩
  have hsound : Transfer.Sound messages lengths s :=
    StepSystem.exec_invariant (fun _ _ _ hs _ hst => (hs.step hst).1)
      (Transfer.sound_start messages lengths) (StepSystem.AllSteps.trivial _ _) h
  refine ⟨?_, Transfer.exists_step, fun b hb => ?_, ?_, fun hdone => ?_⟩
  · have hcount := StepSystem.exec_length_le Transfer.work (I := Transfer.Sound messages lengths)
      (fun _ _ _ hs hst => hs.step hst) (Transfer.sound_start messages lengths) h
    simpa [Transfer.work, Transfer.start, Fifo.empty] using hcount
  · have hmem : b ∈ messages.map fun _ => true := by
      rw [← hsound.wrote]
      exact List.mem_append_left _ hb
    obtain ⟨_, -, rfl⟩ := List.mem_map.mp hmem
    rfl
  · rw [← hsound.received]
    exact List.prefix_append _ _
  · rw [← hsound.received, hdone]
    simp [cut]

/-- A message of two bytes, an empty one, and a byte that never comes. -/
def threeReads : List Transfer.Act :=
  [.write 1, .read 1, .write 1, .write 0, .read 1, .read 0, .close, .read 0]

theorem transfer_independent_of_fragmentation_threeReads :
    ∃ s, Transfer.system.exec (.start [[1, 2], []] [2, 0, 1]) threeReads = some s ∧
      s.received = [(true, [1, 2]), (true, []), (false, [])] :=
  have hrun : ∃ s, Transfer.system.exec (.start [[1, 2], []] [2, 0, 1]) threeReads = some s ∧
      s.reading = [] := ⟨_, rfl, by decide⟩
  hrun.elim fun s hs =>
    ⟨s, hs.1, (transfer_independent_of_fragmentation.2.2.1 _ _ _ _ hs.1).2.2.2.2 hs.2⟩

end Jpgsync
