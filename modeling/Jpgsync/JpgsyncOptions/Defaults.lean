import Jpgsync.JpgsyncOptions

/-!
# JpgsyncOptions — Defaults

What `Root::Init` and `InitDefaults` do, once: the shape of a directory
they accept, and the three ways in which `InitDefaults` returns.
-/

namespace Jpgsync

open ProgramOptions

/-! ## Searching a text -/

theorem findByte_eq_some {c : UInt8} {s : Bytes} {pos : Nat} :
    findByte c s = some pos ↔ ∃ a b, s = a ++ c :: b ∧ c ∉ a ∧ a.length = pos := by
  unfold findByte
  induction s generalizing pos with
  | nil => simp
  | cons d s ih =>
      rw [List.findIdx?_cons]
      by_cases hd : d = c
      · subst hd
        simp only [beq_self_eq_true, if_true, Option.some.injEq]
        constructor
        · rintro rfl
          exact ⟨[], s, rfl, List.not_mem_nil, rfl⟩
        · rintro ⟨a, b, hs, ha, rfl⟩
          cases a with
          | nil => rfl
          | cons e a =>
              obtain ⟨rfl, -⟩ := List.cons.inj hs
              simp at ha
      · simp only [beq_iff_eq, hd, if_false, Option.map_eq_some_iff]
        constructor
        · rintro ⟨i, hi, rfl⟩
          obtain ⟨a, b, rfl, ha, rfl⟩ := ih.mp hi
          refine ⟨d :: a, b, rfl, ?_, rfl⟩
          simpa using ⟨fun h => hd h.symm, ha⟩
        · rintro ⟨a, b, hs, ha, rfl⟩
          cases a with
          | nil =>
              obtain ⟨rfl, -⟩ := List.cons.inj hs
              exact absurd rfl hd
          | cons e a =>
              obtain ⟨rfl, rfl⟩ := List.cons.inj hs
              exact ⟨a.length, ih.mpr ⟨a, b, rfl, fun h => ha (List.mem_cons_of_mem _ h), rfl⟩, rfl⟩

theorem findByte_eq_none {c : UInt8} {s : Bytes} : findByte c s = none ↔ c ∉ s := by
  simp [findByte, List.findIdx?_eq_none_iff]
  exact ⟨fun h hc => h c hc rfl, fun h d hd heq => h (heq ▸ hd)⟩

/-- The last occurrence. -/
theorem rfindByte_eq_some {c : UInt8} {s : Bytes} {pos : Nat} :
    rfindByte c s = some pos ↔ ∃ a b, s = a ++ c :: b ∧ c ∉ b ∧ a.length = pos := by
  simp only [rfindByte, Option.map_eq_some_iff, findByte_eq_some]
  constructor
  · rintro ⟨i, ⟨a, b, hs, ha, rfl⟩, rfl⟩
    have hs' : s = b.reverse ++ c :: a.reverse := by
      rw [← List.reverse_reverse s, hs]
      simp
    refine ⟨b.reverse, a.reverse, hs', by simpa using ha, ?_⟩
    rw [hs']
    simp
  · rintro ⟨a, b, rfl, hb, rfl⟩
    refine ⟨b.length, ⟨b.reverse, a.reverse, by simp, by simpa using hb, by simp⟩, ?_⟩
    simp

theorem rfindByte_eq_none {c : UInt8} {s : Bytes} : rfindByte c s = none ↔ c ∉ s := by
  simp [rfindByte, findByte_eq_none]

/-- What stands behind it. -/
theorem drop_separator (a : Bytes) (c : UInt8) (b : Bytes) :
    (a ++ c :: b).drop (a.length + 1) = b := by
  rw [List.drop_length_add_append, List.drop_succ_cons, List.drop_zero]

/-! ## Roots -/

/-- The directory of a root. -/
def PlainDir (dir : Bytes) : Prop := dir ≠ [] ∧ 58 ∉ dir

/-- `Init` leaves a directory without a separator, -/
theorem Root.plainDir_of_init {self root : Root} {text : Bytes} {n : Nat}
    (h : self.init text = .ok (root, n)) : PlainDir root.dir := by
  have hdot : PlainDir (ascii ".") := by
    constructor <;> decide
  unfold Root.init at h
  split at h
  · rename_i hnone
    cases h
    by_cases htext : text = []
    · simpa [htext] using hdot
    · simpa [htext] using ⟨htext, rfindByte_eq_none.mp hnone⟩
  · rename_i pos hsome
    obtain ⟨a, b, rfl, hb, rfl⟩ := rfindByte_eq_some.mp hsome
    have hdir : PlainDir (if (a ++ 58 :: b).drop (a.length + 1) = [] then ascii "."
        else (a ++ 58 :: b).drop (a.length + 1)) := by
      rw [drop_separator]
      split
      · exact hdot
      · rename_i hne
        exact ⟨hne, hb⟩
    split at h
    · dsimp only at h
      split at h
      · cases h
        exact hdir
      · split at h
        · cases h
          exact hdir
        · cases h
    · cases h

/-- and takes such a directory as it is. -/
theorem Root.init_plainDir {dir : Bytes} (self : Root) (h : PlainDir dir) :
    self.init dir = .ok (⟨dir, [], []⟩, 0) := by
  simp [Root.init, rfindByte_eq_none.mpr h.2, h.1]

/-- The number `Init` returns is zero for a local root. -/
theorem Root.init_eq_zero {self root : Root} {text : Bytes} {n : Nat}
    (h : self.init text = .ok (root, n)) : n = 0 ↔ root.hostname = [] := by
  unfold Root.init at h
  split at h
  · cases h
    simp
  · rename_i pos hsome
    obtain ⟨a, b, rfl, -, rfl⟩ := rfindByte_eq_some.mp hsome
    split at h
    · rename_i hpos
      dsimp only at h
      split at h
      · cases h
        simpa using hpos
      · split at h
        · rename_i hhost
          cases h
          simpa using hhost.2
        · cases h
    · cases h

/-! ## InitDefaults -/

namespace JpgsyncOptions

variable {po p : JpgsyncOptions}

/-- How `InitDefaults` returns with `-s`. -/
structure SlaveDefaults (po p : JpgsyncOptions) : Prop where
  slave : po.count .slave = true
  master : po.count .master = false
  argc : po.argc = 2
  argv : p.argv = po.argv
  root : ∃ n, po.slaveRoot.init (po.argv.getD 1 []) = .ok (p.slaveRoot, n)
  address : masterAddress po.slave = some (p.masterHost, p.masterPort)

/-- How it returns with `-m`. -/
structure MasterDefaults (po p : JpgsyncOptions) : Prop where
  slave : po.count .slave = false
  master : po.count .master = true
  argc : po.argc = 2
  argv : p.argv = po.argv
  root : ∃ n, po.masterRoot.init (po.argv.getD 1 []) = .ok (p.masterRoot, n)

/-- How it returns with two roots: a remote one comes first. -/
structure TwoRoots (po p : JpgsyncOptions) (first second : Root) : Prop where
  slave : po.count .slave = false
  master : po.count .master = false
  argc : po.argc = 3
  initFirst : ∃ n, po.masterRoot.init (po.argv.getD 1 []) = .ok (first, n)
  initSecond : ∃ n, po.slaveRoot.init (po.argv.getD 2 []) = .ok (second, n)
  roots :
    if first.hostname = [] ∧ second.hostname ≠ [] then
      p.masterRoot = second ∧ p.slaveRoot = first ∧ p.argv = Gather.swapAt po.argv 1 2
    else p.masterRoot = first ∧ p.slaveRoot = second ∧ p.argv = po.argv

theorem initRoots_slave (h : po.count .slave = true) :
    po.initRoots = (po.slaveRoot.init (po.argv.getD 1 [])).bind
      fun r => .ok { po with slaveRoot := r.1 } := by
  rw [initRoots, if_pos h]
  rfl

theorem initRoots_master (hslave : po.count .slave = false) (hmaster : po.count .master = true) :
    po.initRoots = (po.masterRoot.init (po.argv.getD 1 [])).bind
      fun r => .ok { po with masterRoot := r.1 } := by
  have hnot : ¬ po.count .slave = true := by simp [hslave]
  rw [initRoots, if_neg hnot]
  cases po.masterRoot.init (po.argv.getD 1 []) with
  | error e => rfl
  | ok r =>
      simp only [bind, Except.bind, hmaster, if_true]
      rfl

theorem initRoots_both (hslave : po.count .slave = false) (hmaster : po.count .master = false) :
    po.initRoots = (po.masterRoot.init (po.argv.getD 1 [])).bind fun first =>
      (po.slaveRoot.init (po.argv.getD 2 [])).bind fun second =>
        if second.2 ≠ 0 ∧ first.2 = 0 then
          .ok { po with
            masterRoot := second.1
            slaveRoot := first.1
            argv := Gather.swapAt po.argv 1 2 }
        else .ok { po with masterRoot := first.1, slaveRoot := second.1 } := by
  have hnot : ¬ po.count .slave = true := by simp [hslave]
  rw [initRoots, if_neg hnot]
  cases po.masterRoot.init (po.argv.getD 1 []) with
  | error e => rfl
  | ok first =>
      simp only [bind, Except.bind, hmaster, Bool.false_eq_true, if_false]
      cases po.slaveRoot.init (po.argv.getD 2 []) <;> rfl

theorem initMaster_none (h : po.count .slave = false) : po.initMaster = .ok po := by
  have hnot : ¬ po.count .slave = true := by simp [h]
  rw [initMaster, if_neg hnot]
  rfl

theorem initMaster_some (h : po.count .slave = true) :
    po.initMaster = .ok p ↔ ∃ address, masterAddress po.slave = some address ∧
      p = { po with masterHost := address.1, masterPort := address.2 } := by
  rw [initMaster, if_pos h]
  cases masterAddress po.slave with
  | none => simp [throw, throwThe, MonadExceptOf.throw]
  | some address => simpa [pure, Except.pure] using eq_comm

/-- What `InitDefaults` checks first. -/
theorem initDefaults_counts (h : po.initDefaults = .ok p) :
    (po.count .slave = true → po.count .master = false) ∧
      po.argc = 3 - (po.count .slave || po.count .master).toNat ∧
      ∃ q, po.initRoots = .ok q ∧ q.initMaster = .ok p := by
  unfold initDefaults at h
  split at h
  · cases h
  · rename_i hboth
    split at h
    · cases h
    · rename_i hneed
      refine ⟨fun hs => by simpa [hs] using hboth, ?_, ?_⟩
      · have hle := Bool.toNat_le (po.count .slave || po.count .master)
        omega
      · cases hroots : po.initRoots with
        | error e =>
            rw [hroots] at h
            cases h
        | ok q =>
            rw [hroots] at h
            exact ⟨q, rfl, h⟩

/-- `InitDefaults` returns in one of three ways. -/
theorem initDefaults_cases (h : po.initDefaults = .ok p) :
    p.val = po.val ∧ p.argc = po.argc ∧
      (SlaveDefaults po p ∨ MasterDefaults po p ∨ ∃ first second, TwoRoots po p first second) := by
  obtain ⟨hboth, hargc, q, hroots, hmaster⟩ := initDefaults_counts h
  cases hs : po.count .slave with
  | true =>
      rw [initRoots_slave hs] at hroots
      cases hroot : po.slaveRoot.init (po.argv.getD 1 []) with
      | error e =>
          rw [hroot] at hroots
          cases hroots
      | ok r =>
          rw [hroot] at hroots
          cases hroots
          obtain ⟨address, haddress, rfl⟩ :=
            (@initMaster_some { po with slaveRoot := r.1 } _ hs).mp hmaster
          exact ⟨rfl, rfl, Or.inl ⟨hs, hboth hs, by simpa [hs] using hargc, rfl, ⟨r.2, hroot⟩,
            haddress⟩⟩
  | false =>
      cases hm : po.count .master with
      | true =>
          rw [initRoots_master hs hm] at hroots
          cases hroot : po.masterRoot.init (po.argv.getD 1 []) with
          | error e =>
              rw [hroot] at hroots
              cases hroots
          | ok r =>
              rw [hroot] at hroots
              cases hroots
              cases (@initMaster_none { po with masterRoot := r.1 } hs).symm.trans hmaster
              exact ⟨rfl, rfl, Or.inr (Or.inl ⟨hs, hm, by simpa [hs, hm] using hargc, rfl, r.2,
                hroot⟩)⟩
      | false =>
          rw [initRoots_both hs hm] at hroots
          have hargc' : po.argc = 3 := by simpa [hs, hm] using hargc
          cases hfirst : po.masterRoot.init (po.argv.getD 1 []) with
          | error e =>
              rw [hfirst] at hroots
              cases hroots
          | ok first =>
              cases hsecond : po.slaveRoot.init (po.argv.getD 2 []) with
              | error e =>
                  rw [hfirst, hsecond] at hroots
                  cases hroots
              | ok second =>
                  rw [hfirst, hsecond] at hroots
                  have hn := Root.init_eq_zero hfirst
                  have hn' := Root.init_eq_zero hsecond
                  simp only [Except.bind, ne_eq, hn, hn'] at hroots
                  split at hroots
                  · rename_i hswap
                    cases hroots
                    cases (@initMaster_none { po with
                      masterRoot := second.1, slaveRoot := first.1,
                      argv := Gather.swapAt po.argv 1 2 } hs).symm.trans hmaster
                    refine ⟨rfl, rfl, Or.inr (Or.inr ⟨first.1, second.1, hs, hm, hargc',
                      ⟨first.2, hfirst⟩, ⟨second.2, hsecond⟩, ?_⟩)⟩
                    rw [if_pos ⟨hswap.2, hswap.1⟩]
                    exact ⟨rfl, rfl, rfl⟩
                  · rename_i hswap
                    cases hroots
                    cases (@initMaster_none { po with
                      masterRoot := first.1, slaveRoot := second.1 } hs).symm.trans hmaster
                    refine ⟨rfl, rfl, Or.inr (Or.inr ⟨first.1, second.1, hs, hm, hargc',
                      ⟨first.2, hfirst⟩, ⟨second.2, hsecond⟩, ?_⟩)⟩
                    rw [if_neg fun hc => hswap ⟨hc.2, hc.1⟩]
                    exact ⟨rfl, rfl, rfl⟩

/-- One option of `-m` and `-s` and one argument pass the checks. -/
theorem initDefaults_one (hboth : po.count .slave = !po.count .master) (hargc : po.argc = 2) :
    po.initDefaults = po.initRoots.bind initMaster := by
  cases hm : po.count .master <;> simp [initDefaults, hm, hboth, hargc] <;> rfl

/-- With `-m` a plain directory is enough. -/
theorem initDefaults_master {dir : Bytes} (hslave : po.count .slave = false)
    (hmaster : po.count .master = true) (hargc : po.argc = 2) (hdir : po.argv.getD 1 [] = dir)
    (hplain : PlainDir dir) :
    po.initDefaults = .ok { po with masterRoot := ⟨dir, [], []⟩ } := by
  rw [initDefaults_one (by simp [hslave, hmaster]) hargc, initRoots_master hslave hmaster, hdir,
    Root.init_plainDir _ hplain]
  exact initMaster_none hslave

/-- With `-s` it takes the address of the master, too. -/
theorem initDefaults_slave {dir : Bytes} {address : Bytes × UInt16}
    (hslave : po.count .slave = true) (hmaster : po.count .master = false)
    (hargc : po.argc = 2) (hdir : po.argv.getD 1 [] = dir)
    (hplain : PlainDir dir) (haddress : masterAddress po.slave = some address) :
    po.initDefaults = .ok { po with
      slaveRoot := ⟨dir, [], []⟩, masterHost := address.1, masterPort := address.2 } := by
  rw [initDefaults_one (by simp [hslave, hmaster]) hargc, initRoots_slave hslave, hdir,
    Root.init_plainDir _ hplain]
  exact (@initMaster_some { po with slaveRoot := ⟨dir, [], []⟩ } _ hslave).mpr
    ⟨address, haddress, rfl⟩

end JpgsyncOptions

end Jpgsync
