import Jpgsync.Protocol
import Jpgsync.Lib.StepSystem

/-!
# Protocol — Fully

`ReadFully` and `WriteFully` of `Protocol<SOCK_STREAM>` with their loops: a
step is one `read` or `write`, whose label is the number it returns. A call
moves any number of bytes up to the one asked for, and returns zero only
when nothing was asked for or the stream has ended. `readExactly` and
`writeExactly`, which the peers use, are these loops seen from outside.
-/

namespace Jpgsync

/-! ## The calls -/

/-- `read(fd, buf, n)` returns `ret`: what it puts into the buffer. There is
no such call while nothing is pending and more may come. -/
def readCall (input : Fifo UInt8) (n ret : Nat) : Option (Bytes × Fifo UInt8) :=
  if n = 0 ∨ input.atEnd then
    if ret = 0 then some ([], input) else none
  else if 0 < ret ∧ ret ≤ n then input.pop ret
  else none

/-- `write(fd, buf, n)` returns `ret`, with `rest` the `n` bytes. -/
def writeCall (output : Fifo UInt8) (rest : Bytes) (ret : Nat) : Option (Fifo UInt8) :=
  if rest.length = 0 then
    if ret = 0 then some output else none
  else if 0 < ret ∧ ret ≤ rest.length then some (output.push (rest.take ret))
  else none

variable {input input' output output' : Fifo UInt8} {n ret : Nat} {bytes rest : Bytes}

/-- What a `read` that returns can have done. -/
theorem readCall_cases (h : readCall input n ret = some (bytes, input')) :
    (ret = 0 ∧ bytes = [] ∧ input' = input ∧
        (n = 0 ∨ input.closed = true ∧ input.pending = [])) ∨
      (0 < ret ∧ ret ≤ n ∧ bytes.length = ret ∧ bytes ++ input'.pending = input.pending ∧
        input'.sent = input.sent ∧ input'.closed = input.closed) := by
  unfold readCall at h
  split at h
  · rename_i hzero
    split at h
    · rename_i hret
      cases h
      exact Or.inl ⟨hret, rfl, rfl, hzero.imp_right Fifo.atEnd_iff.mp⟩
    · cases h
  · split at h
    · rename_i hret
      obtain ⟨hle, rfl, hpending, hsent, hclosed⟩ := Fifo.pop_eq_some h
      refine Or.inr ⟨hret.1, hret.2, ?_, ?_, hsent, hclosed⟩
      · rw [List.length_take, Nat.min_eq_left hle]
      · rw [hpending, List.take_append_drop]
    · cases h

/-- A `read` can return unless it has to wait. -/
theorem exists_readCall (h : n = 0 ∨ input.closed = true ∨ input.pending ≠ []) :
    ∃ ret, (readCall input n ret).isSome := by
  by_cases hzero : n = 0 ∨ input.atEnd
  · exact ⟨0, by simp [readCall, hzero]⟩
  · have hpending : input.pending ≠ [] := by
      intro hnil
      rcases h with h | h | h
      · exact hzero (Or.inl h)
      · exact hzero (Or.inr (Fifo.atEnd_iff.mpr ⟨h, hnil⟩))
      · exact h hnil
    have hn : 1 ≤ n := Nat.pos_of_ne_zero fun h0 => hzero (Or.inl h0)
    refine ⟨1, ?_⟩
    rw [readCall, if_neg hzero, if_pos ⟨Nat.one_pos, hn⟩]
    exact Fifo.pop_isSome (List.length_pos_iff.mpr hpending)

/-- What a `write` that returns can have done. -/
theorem writeCall_cases (h : writeCall output rest ret = some output') :
    ret ≤ rest.length ∧ (ret = 0 ↔ rest = []) ∧ output' = output.push (rest.take ret) := by
  unfold writeCall at h
  split at h
  · rename_i hlen
    have hrest : rest = [] := List.length_eq_zero_iff.mp hlen
    split at h
    · rename_i hret
      cases h
      subst hrest hret
      refine ⟨Nat.le_refl 0, by simp, ?_⟩
      cases output
      simp [Fifo.push]
    · cases h
  · rename_i hlen
    split at h
    · rename_i hret
      cases h
      refine ⟨hret.2, ?_, rfl⟩
      rw [← List.length_eq_zero_iff]
      omega
    · cases h

theorem exists_writeCall (output : Fifo UInt8) (rest : Bytes) :
    ∃ ret, (writeCall output rest ret).isSome := by
  by_cases hlen : rest.length = 0
  · exact ⟨0, by simp [writeCall, hlen]⟩
  · refine ⟨1, ?_⟩
    have hpos : 1 ≤ rest.length := Nat.pos_of_ne_zero hlen
    simp [writeCall, hlen, hpos]

/-! ## ReadFully -/

/-- A call `ReadFully(fd, buf, count)`: what is in the buffer so far, and
what has been returned. -/
structure ReadFully where
  count : Nat
  bytes : Bytes
  returned : Option Nat
deriving DecidableEq

namespace ReadFully

/-- About to enter the loop. -/
def start (count : Nat) : ReadFully := ⟨count, [], none⟩

/-- The loop body, with a `read` that returns `ret`. -/
def step (s : ReadFully) (input : Fifo UInt8) (ret : Nat) : Option (ReadFully × Fifo UInt8) :=
  match s.returned with
  | some _ => none
  | none =>
    (readCall input (s.count - s.bytes.length) ret).map fun r =>
      let bytes := s.bytes ++ r.1
      let returned := if ret = 0 ∨ bytes.length = s.count then some bytes.length else none
      ({ s with bytes := bytes, returned := returned }, r.2)

/-- The call alone on its stream. -/
def system : StepSystem (ReadFully × Fifo UInt8) Nat := ⟨fun s ret => s.1.step s.2 ret⟩

variable {s t : ReadFully}

/-- **One iteration**: it goes on with more bytes, returns with all of them,
or returns at the end of the stream. -/
theorem step_cases (hle : s.bytes.length ≤ s.count) (h : s.step input ret = some (t, input')) :
    t.count = s.count ∧ s.bytes.length ≤ t.bytes.length ∧ t.bytes.length ≤ t.count ∧
      t.bytes ++ input'.pending = s.bytes ++ input.pending ∧
      input'.sent = input.sent ∧ input'.closed = input.closed ∧
      ((t.returned = none ∧ s.bytes.length < t.bytes.length ∧ t.bytes.length < t.count) ∨
        (t.returned = some t.count ∧ t.bytes.length = t.count) ∨
        (t.returned = some t.bytes.length ∧ t.bytes.length < t.count ∧
          input'.closed = true ∧ input'.pending = [])) := by
  unfold step at h
  split at h
  · cases h
  · obtain ⟨⟨bytes, input₁⟩, hcall, heq⟩ := Option.map_eq_some_iff.mp h
    cases heq
    dsimp only
    rcases readCall_cases hcall with ⟨rfl, rfl, rfl, hend⟩ |
        ⟨hpos, hret, hlen, hpending, hsent, hclosed⟩
    · refine ⟨rfl, by simp, by simpa using hle, by simp, rfl, rfl, ?_⟩
      by_cases hfull : s.bytes.length = s.count
      · simp [hfull]
      · have hat := hend.resolve_left (by omega)
        refine Or.inr (Or.inr ⟨by simp, ?_, hat⟩)
        simp only [List.append_nil]
        omega
    · refine ⟨rfl, by simp, by rw [List.length_append]; omega,
        by rw [List.append_assoc, hpending], hsent, hclosed, ?_⟩
      by_cases hfull : (s.bytes ++ bytes).length = s.count
      · exact Or.inr (Or.inl ⟨by simp [hfull], hfull⟩)
      · refine Or.inl ⟨if_neg (not_or.mpr ⟨Nat.ne_of_gt hpos, hfull⟩), ?_, ?_⟩
        · rw [List.length_append]
          omega
        · rw [List.length_append] at hfull ⊢
          omega

/-- A call that has not returned makes another `read` as soon as it can. -/
theorem exists_step (hnone : s.returned = none)
    (hready : s.count ≤ s.bytes.length ∨ input.closed = true ∨ input.pending ≠ []) :
    ∃ ret, (s.step input ret).isSome := by
  obtain ⟨ret, hret⟩ := @exists_readCall input (s.count - s.bytes.length)
    (hready.imp_left fun h => Nat.sub_eq_zero_of_le h)
  exact ⟨ret, by simpa [step, hnone] using hret⟩

/-- What is still to be read, and the `read` that finds out. -/
def work (s : ReadFully) : Nat := if s.returned = none then s.count - s.bytes.length + 1 else 0

theorem work_step (hle : s.bytes.length ≤ s.count) (h : s.step input ret = some (t, input')) :
    t.work < s.work := by
  have hnone : s.returned = none := by
    unfold step at h
    split at h
    · cases h
    · assumption
  obtain ⟨hcount, -, -, -, -, -, hcase⟩ := step_cases hle h
  unfold work
  rw [if_pos hnone]
  rcases hcase with ⟨hmore, hlt, hlt'⟩ | ⟨hfull, -⟩ | ⟨hended, -⟩
  · rw [if_pos hmore]
    omega
  · rw [if_neg (by simp [hfull])]
    exact Nat.succ_pos _
  · rw [if_neg (by simp [hended])]
    exact Nat.succ_pos _

/-- What holds during a call on a stream with `content`. -/
structure Reading (count : Nat) (content : Bytes) (s : ReadFully × Fifo UInt8) : Prop where
  count_eq : s.1.count = count
  length_le : s.1.bytes.length ≤ count
  conserved : s.1.bytes ++ s.2.pending = content
  closed : s.2.closed = true
  result : ∀ n, s.1.returned = some n →
    n = s.1.bytes.length ∧ (s.1.bytes.length = count ∨ s.2.pending = [])

theorem reading_start (count : Nat) (content : Bytes) :
    Reading count content (start count, .closedOf content) :=
  ⟨rfl, Nat.zero_le _, rfl, rfl, by simp [start]⟩

theorem Reading.step {count : Nat} {content : Bytes} {s t : ReadFully × Fifo UInt8}
    (h : Reading count content s) (hst : system.step s ret = some t) :
    Reading count content t := by
  obtain ⟨s, input⟩ := s
  obtain ⟨t, input'⟩ := t
  have hle : s.bytes.length ≤ s.count := by
    rw [h.count_eq]
    exact h.length_le
  obtain ⟨hcount, -, hlen, hcons, -, hclosed, hcase⟩ := step_cases hle hst
  refine ⟨hcount.trans h.count_eq, ?_, hcons.trans h.conserved, hclosed.trans h.closed, ?_⟩
  · rw [← h.count_eq, ← hcount]
    exact hlen
  · intro n hn
    rw [← h.count_eq, ← hcount]
    rcases hcase with ⟨hmore, -⟩ | ⟨hfull, hlen'⟩ | ⟨hended, -, -, hempty⟩
    · rw [hmore] at hn
      cases hn
    · rw [hfull] at hn
      cases hn
      exact ⟨hlen'.symm, Or.inl hlen'⟩
    · rw [hended] at hn
      cases hn
      exact ⟨rfl, Or.inr hempty⟩

/-- **`ReadFully` returns**, after at most one call for each byte and one
more, and whatever the calls moved, with the first bytes of the stream. -/
theorem returns {count : Nat} {content : Bytes} {rets : List Nat} {s : ReadFully × Fifo UInt8}
    (h : system.exec (start count, .closedOf content) rets = some s) :
    rets.length ≤ count + 1 ∧
      (s.1.returned = none → ∃ ret, (system.step s ret).isSome) ∧
      ∀ n, s.1.returned = some n → n = min count content.length ∧
        s.1.bytes = content.take count ∧ s.2.pending = content.drop count := by
  have hreading : Reading count content s :=
    StepSystem.exec_invariant (fun _ _ _ hs _ hst => hs.step hst) (reading_start count content)
      (StepSystem.AllSteps.trivial _ _) h
  refine ⟨?_, fun hnone => exists_step hnone (Or.inr (Or.inl hreading.closed)), fun n hn => ?_⟩
  · have hcount := StepSystem.exec_length_le (fun s => s.1.work) (I := Reading count content)
      (fun s a t hs hst => by
        have hle : s.1.bytes.length ≤ s.1.count := hs.count_eq ▸ hs.length_le
        exact ⟨hs.step hst, work_step hle hst⟩)
      (reading_start count content) h
    simpa [work, start] using hcount
  · obtain ⟨rfl, hend⟩ := hreading.result n hn
    have hlen := congrArg List.length hreading.conserved
    rw [List.length_append] at hlen
    rcases hend with hfull | hempty
    · rw [← hreading.conserved, ← hfull]
      refine ⟨?_, by rw [List.take_left], by rw [List.drop_left]⟩
      rw [List.length_append]
      omega
    · rw [← hreading.conserved, hempty, List.append_nil]
      have hle := hreading.length_le
      refine ⟨by omega, ?_, ?_⟩
      · rw [List.take_of_length_le hle]
      · rw [List.drop_of_length_le hle]

end ReadFully

/-! ## WriteFully -/

/-- A call `WriteFully(fd, buf, count)` with the bytes in the buffer. -/
structure WriteFully where
  data : Bytes
  writeCount : Nat
  returned : Option Nat
deriving DecidableEq

namespace WriteFully

/-- About to enter the loop. -/
def start (data : Bytes) : WriteFully := ⟨data, 0, none⟩

/-- The loop body, with a `write` that returns `ret`. -/
def step (s : WriteFully) (output : Fifo UInt8) (ret : Nat) : Option (WriteFully × Fifo UInt8) :=
  match s.returned with
  | some _ => none
  | none =>
    (writeCall output (s.data.drop s.writeCount) ret).map fun output =>
      let writeCount := s.writeCount + ret
      let returned := if ret = 0 ∨ writeCount = s.data.length then some writeCount else none
      ({ s with writeCount := writeCount, returned := returned }, output)

/-- The call alone on its stream. -/
def system : StepSystem (WriteFully × Fifo UInt8) Nat := ⟨fun s ret => s.1.step s.2 ret⟩

variable {s t : WriteFully}

/-- **One iteration**: it goes on with less to write, or has written all. -/
theorem step_cases (hle : s.writeCount ≤ s.data.length)
    (h : s.step output ret = some (t, output')) :
    t.data = s.data ∧ t.writeCount ≤ t.data.length ∧
      output'.sent ++ t.data.drop t.writeCount = output.sent ++ s.data.drop s.writeCount ∧
      output'.pending ++ t.data.drop t.writeCount =
        output.pending ++ s.data.drop s.writeCount ∧
      output'.closed = output.closed ∧
      ((t.returned = none ∧ s.writeCount < t.writeCount) ∨
        (t.returned = some t.data.length ∧ t.writeCount = t.data.length)) := by
  unfold step at h
  split at h
  · cases h
  · obtain ⟨output₁, hcall, heq⟩ := Option.map_eq_some_iff.mp h
    cases heq
    obtain ⟨hret, hzero, rfl⟩ := writeCall_cases hcall
    rw [List.length_drop] at hret
    have hsplit : (s.data.drop s.writeCount).take ret ++ s.data.drop (s.writeCount + ret) =
        s.data.drop s.writeCount := by
      rw [← List.drop_drop, List.take_append_drop]
    refine ⟨rfl, by dsimp only; omega, by simp [hsplit], by simp [hsplit], rfl, ?_⟩
    dsimp only
    by_cases hfull : s.writeCount + ret = s.data.length
    · exact Or.inr ⟨by simp [hfull], hfull⟩
    · have hne : ret ≠ 0 := by
        intro h0
        have hnil := List.drop_eq_nil_iff.mp (hzero.mp h0)
        omega
      exact Or.inl ⟨if_neg (not_or.mpr ⟨hne, hfull⟩), by omega⟩

/-- A call that has not returned can make another `write`. -/
theorem exists_step (output : Fifo UInt8) (hnone : s.returned = none) :
    ∃ ret, (s.step output ret).isSome := by
  obtain ⟨ret, hret⟩ := exists_writeCall output (s.data.drop s.writeCount)
  exact ⟨ret, by simpa [step, hnone] using hret⟩

/-- What is still to be written, and the `write` that finds out. -/
def work (s : WriteFully) : Nat :=
  if s.returned = none then s.data.length - s.writeCount + 1 else 0

theorem work_step (hle : s.writeCount ≤ s.data.length)
    (h : s.step output ret = some (t, output')) : t.work < s.work := by
  have hnone : s.returned = none := by
    unfold step at h
    split at h
    · cases h
    · assumption
  obtain ⟨hdata, -, -, -, -, hcase⟩ := step_cases hle h
  unfold work
  rw [if_pos hnone]
  rcases hcase with ⟨hmore, hlt⟩ | ⟨hfull, -⟩
  · rw [if_pos hmore, hdata]
    have hle' := (step_cases hle h).2.1
    rw [hdata] at hle'
    omega
  · rw [if_neg (by simp [hfull])]
    exact Nat.succ_pos _

/-- What holds during a call to which `sent` was written before. -/
structure Writing (data sent : Bytes) (s : WriteFully × Fifo UInt8) : Prop where
  data_eq : s.1.data = data
  count_le : s.1.writeCount ≤ data.length
  conserved : s.2.sent ++ s.1.data.drop s.1.writeCount = sent ++ data
  result : ∀ n, s.1.returned = some n → n = data.length ∧ s.1.writeCount = data.length

theorem writing_start (data : Bytes) (output : Fifo UInt8) :
    Writing data output.sent (start data, output) :=
  ⟨rfl, Nat.zero_le _, rfl, by simp [start]⟩

theorem Writing.step {data sent : Bytes} {s t : WriteFully × Fifo UInt8} (h : Writing data sent s)
    (hst : system.step s ret = some t) : Writing data sent t := by
  obtain ⟨s, output⟩ := s
  obtain ⟨t, output'⟩ := t
  have hle : s.writeCount ≤ s.data.length := by
    rw [h.data_eq]
    exact h.count_le
  obtain ⟨hdata, hle', hsent, -, -, hcase⟩ := step_cases hle hst
  have hdata' : t.data = data := hdata.trans h.data_eq
  refine ⟨hdata', hdata' ▸ hle', hsent.trans h.conserved, fun n hn => ?_⟩
  rcases hcase with ⟨hmore, -⟩ | ⟨hfull, hcount⟩
  · rw [hmore] at hn
    cases hn
  · rw [hfull] at hn
    cases hn
    exact ⟨congrArg List.length hdata', hcount.trans (congrArg List.length hdata')⟩

/-- **`WriteFully` returns**, after at most one call for each byte and one
more, and whatever the calls moved, all bytes have been appended. -/
theorem returns {data : Bytes} {output : Fifo UInt8} {rets : List Nat}
    {s : WriteFully × Fifo UInt8} (h : system.exec (start data, output) rets = some s) :
    rets.length ≤ data.length + 1 ∧
      (s.1.returned = none → ∃ ret, (system.step s ret).isSome) ∧
      ∀ n, s.1.returned = some n → n = data.length ∧ s.2.sent = output.sent ++ data := by
  have hwriting : Writing data output.sent s :=
    StepSystem.exec_invariant (fun _ _ _ hs _ hst => hs.step hst) (writing_start data output)
      (StepSystem.AllSteps.trivial _ _) h
  refine ⟨?_, fun hnone => exists_step s.2 hnone, fun n hn => ?_⟩
  · have hcount := StepSystem.exec_length_le (fun s => s.1.work) (I := Writing data output.sent)
      (fun s a t hs hst => by
        have hle : s.1.writeCount ≤ s.1.data.length := by
          rw [hs.data_eq]
          exact hs.count_le
        exact ⟨hs.step hst, work_step hle hst⟩)
      (writing_start data output) h
    simpa [work, start] using hcount
  · obtain ⟨rfl, hcount⟩ := hwriting.result n hn
    have hsent := hwriting.conserved
    rw [hcount, hwriting.data_eq, List.drop_length, List.append_nil] at hsent
    exact ⟨rfl, hsent⟩

end WriteFully

/-! ## The loops seen from outside -/

section

variable {count k : Nat} {bytes' rest' : Bytes}

/-- A peer that reads on makes an iteration of `ReadFully`, -/
theorem readExactly_more_iff (hlt : bytes.length < count) :
    readExactly input count bytes k = some (.more bytes' input') ↔
      0 < k ∧ ReadFully.step ⟨count, bytes, none⟩ input k =
        some (⟨count, bytes', if bytes'.length = count then some bytes'.length else none⟩,
          input') := by
  have hne : ¬ bytes.length = count := Nat.ne_of_lt hlt
  have hroom : ¬ count - bytes.length = 0 := by omega
  by_cases hend : input.atEnd = true
  · have hstep : 0 < k → ReadFully.step ⟨count, bytes, none⟩ input k = none := by
      intro hk
      simp [ReadFully.step, readCall, hend, Nat.ne_of_gt hk]
    rw [readExactly, if_neg hne, if_pos hend]
    refine iff_of_false (by simp) fun h => ?_
    rw [hstep h.1] at h
    cases h.2
  · by_cases hk : 0 < k ∧ k ≤ count - bytes.length
    · have hfit : 0 < k ∧ bytes.length + k ≤ count := by omega
      have hcall : readCall input (count - bytes.length) k = input.pop k := by
        rw [readCall, if_neg (not_or.mpr ⟨hroom, hend⟩), if_pos hk]
      rw [readExactly, if_neg hne, if_neg hend, Fifo.fill, if_pos hfit, ReadFully.step, hcall]
      cases input.pop k with
      | none => simp
      | some r =>
          simp only [Option.map_some, Option.some.injEq, ReadResult.more.injEq, Prod.mk.injEq,
            ReadFully.mk.injEq, true_and, Nat.ne_of_gt hk.1, false_or, hk.1]
          constructor
          · rintro ⟨rfl, rfl⟩
            exact ⟨⟨rfl, rfl⟩, rfl⟩
          · rintro ⟨⟨hbytes, -⟩, hrest⟩
            exact ⟨hbytes, hrest⟩
    · have hfit : ¬ (0 < k ∧ bytes.length + k ≤ count) := by omega
      have hcall : readCall input (count - bytes.length) k = none := by
        rw [readCall, if_neg (not_or.mpr ⟨hroom, hend⟩), if_neg hk]
      rw [readExactly, if_neg hne, if_neg hend, Fifo.fill, if_neg hfit, ReadFully.step, hcall]
      simp

/-- one that finds the end of the stream lets it return what there was, -/
theorem readExactly_short_iff (hlt : bytes.length < count) :
    readExactly input count bytes k = some .short ↔
      ReadFully.step ⟨count, bytes, none⟩ input 0 =
        some (⟨count, bytes, some bytes.length⟩, input) := by
  have hne : ¬ bytes.length = count := Nat.ne_of_lt hlt
  have hroom : ¬ count - bytes.length = 0 := by omega
  unfold readExactly ReadFully.step readCall
  by_cases hend : input.atEnd = true
  · simp [hne, hend]
  · simp [hne, hend, hroom]

/-- and one that writes makes an iteration of `WriteFully`. -/
theorem writeExactly_more_iff {data : Bytes} {written : Nat} (hlt : written < data.length) :
    writeExactly output (data.drop written) k = some (.more rest' output') ↔
      0 < k ∧ rest' = data.drop (written + k) ∧
        WriteFully.step ⟨data, written, none⟩ output k =
          some (⟨data, written + k,
            if written + k = data.length then some (written + k) else none⟩, output') := by
  have hne : ¬ (data.drop written).length = 0 := by
    rw [List.length_drop]
    omega
  unfold writeExactly WriteFully.step writeCall
  by_cases hk : 0 < k ∧ k ≤ (data.drop written).length
  · have hk0 : ¬ k = 0 := Nat.ne_of_gt hk.1
    simp only [hne, hk, if_false, if_true, Option.some.injEq, WriteResult.more.injEq,
      List.drop_drop, Option.map_some, hk0, false_or, Prod.mk.injEq, true_and, and_self]
    constructor
    · rintro ⟨rfl, rfl⟩
      exact ⟨rfl, rfl⟩
    · rintro ⟨rfl, rfl⟩
      exact ⟨rfl, rfl⟩
  · simp only [hne, hk, if_false, reduceCtorEq, Option.map_none, and_false]

end

end Jpgsync
