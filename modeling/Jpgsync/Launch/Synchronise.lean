import Jpgsync.Launch.Status
import Jpgsync.Session.Listing

/-!
# Launch — Synchronise

The whole program. `jpgsync` with two directories starts a master and a
slave, each in its own directory, the slave with the address of the master;
when the peers have ended the launcher returns what it sees of them
(`finishes_of_session`), where the shells pass the words of its commands
on. After a session that hits no defect it returns zero, and both
directories have the images of both (`synchronises`).
-/

namespace Jpgsync

open ProgramOptions JpgsyncOptions
open Shell (Environment)

/-- How the process of a peer ends: `main` returns the exit status of the
logger, `Fatal` aborts it. -/
def Peer.ending (p : Peer) : Option Ending :=
  if p.terminated then some (.killed sigabrt)
  else if p.returned then some (.exited (UInt8.ofNat p.host.logger.exitStatus))
  else none

/-- The runs with `--local` are the peers of a session, but for the test
with `nc`: one with `-m` is in the directory of the first side, the other
one in that of the second, and knows the address of the first. -/
def peersOf (A B : Site) (address : Bytes × UInt16) (s : Session) (q : JpgsyncOptions)
    (e : Ending) : Prop :=
  q.count .ncTest = false ∧
    if q.count .master then q.masterRoot.dir = A.cfg.downloadDir ∧ s.a.ending = some e
    else
      q.slaveRoot.dir = B.cfg.downloadDir ∧ (q.masterHost, q.masterPort) = address ∧
        s.b.ending = some e

/-- What is around a launcher whose master listens on `port`: no call of a
process fails, and the runs with `--local` are the peers of a session. -/
def worldOf (environments : Set Environment) (via : Ending → Ending) (port : UInt16)
    (more : Bytes) (A B : Site) (address : Bytes × UInt16) (s : Session) : World where
  arrives := Child.Arrives environments
  lost _ _ := False
  via := via
  output _ := listeningLine port ++ more
  breaks _ := False
  peer := peersOf A B address s

variable {w : World} {environments : Set Environment} {prog : Bytes} {ts : List Bytes}
  {po q : JpgsyncOptions} {child : Child} {A B : Site} {s : Session} {via : Ending → Ending}
  {exif : Bytes → Option ExifHash} {l m : Listing} {es : List Ending} {e x y : Ending}

/-- A run with `--local` is that of its peer. -/
theorem finishes_peer {argv : List Bytes} (h : JpgsyncOptions.parse argv = .ok q)
    (hhelp : q.help = false) (hlocal : q.count .asLocal = true) (hworks : ¬ w.breaks argv) :
    Finishes w (.run argv) es e ↔ w.peer q e ∧ es = [e] := by
  have hnone : ∀ word, children q word = [] := fun word => by simp [children, hlocal]
  constructor
  · intro hfin
    rcases finishes_cases h hhelp hworks hfin with
      ⟨-, hpeer⟩ | ⟨_, hone⟩ | ⟨_, _, htwo, -⟩ | ⟨_, _, _, _, _, _, _, htwo, -⟩
    · exact hpeer
    · cases (hnone _).symm.trans hone
    · cases (hnone _).symm.trans htwo
    · cases (hnone _).symm.trans htwo
  · rintro ⟨hpeer, rfl⟩
    exact .peer argv q e h hhelp hlocal hpeer

/-- A literal child with `--local`, by whatever name it is called. -/
theorem finishes_child (hne : environments.Nonempty) (hliteral : child.Literal environments)
    (harrives : w.arrives = Child.Arrives environments) (hlost : ∀ status, ¬ w.lost child status)
    (hworks : ∀ argv, ¬ w.breaks argv)
    (hrun : ∀ name, ∃ q, JpgsyncOptions.parse (name :: child.args) = .ok q ∧ q.help = false ∧
      q.count .asLocal = true ∧ ∀ e', w.peer q e' ↔ e' = x) :
    Finishes w (.command child) es e ↔ e = x ∧ es = [x] := by
  constructor
  · intro hfin
    cases hfin with
    | lost _ status h => exact (hlost status h).elim
    | carried _ argv _ _ hargv hfin =>
        rw [harrives] at hargv
        obtain ⟨env, henv, env', henv', hdelivered⟩ := hargv
        rw [Child.delivered_eq hliteral henv henv', Option.some_inj] at hdelivered
        subst hdelivered
        obtain ⟨q, hq, hhelp, hlocal, hpeer⟩ := hrun (child.path env')
        obtain ⟨he, rfl⟩ := (finishes_peer hq hhelp hlocal (hworks _)).mp hfin
        obtain rfl := (hpeer e).mp he
        exact ⟨rfl, rfl⟩
  · rintro ⟨rfl, rfl⟩
    obtain ⟨name, hname⟩ := Child.exists_arrives hliteral hne
    obtain ⟨q, hq, hhelp, hlocal, hpeer⟩ := hrun name
    exact .carried child _ _ _ (harrives ▸ hname)
      ((finishes_peer hq hhelp hlocal (hworks _)).mpr ⟨(hpeer e).mpr rfl, rfl⟩)

/-- **A launcher with two roots** runs a session between them, and returns
what it sees of its peers. -/
theorem finishes_of_session (port : UInt16) (more : Bytes)
    (hf : Forwardable (printNumber port.toNat) ts)
    (h : JpgsyncOptions.parse (prog :: ts) = .ok po) (hhelp : po.help = false)
    (hlocal : po.count .asLocal = false) (hmaster : po.count .master = false)
    (hslave : po.count .slave = false) (hnc : po.count .ncTest = false)
    (hhost : ∀ c ∈ po.masterRoot.hostname, isSpace c = false)
    (hne : environments.Nonempty)
    (hliteral : ∀ child ∈ children po (printNumber port.toNat), child.Literal environments)
    (hA : A.cfg.downloadDir = po.masterRoot.dir) (hB : B.cfg.downloadDir = po.slaveRoot.dir)
    (hx : s.a.ending = some x) (hy : s.b.ending = some y) :
    Finishes (worldOf environments via port more A B (slaveHost po.masterRoot, port) s)
        (.run (prog :: ts)) es e ↔
      es = [x, y] ∧ e = .exited (verdict [via y, via x]).exitStatus := by
  obtain ⟨master, slave, hchildren, -, hrun, hrun'⟩ :=
    exists_children hf h hhelp hlocal hmaster hslave
  rw [hchildren, List.forall_mem_cons, List.forall_mem_singleton] at hliteral
  have hcapture : capture (listeningLine port ++ more) = some (printNumber port.toNat) :=
    capture_listeningLine port more
  have hfirst : ∀ es e, Finishes (worldOf environments via port more A B
      (slaveHost po.masterRoot, port) s) (.command master) es e ↔ e = x ∧ es = [x] := by
    refine fun es e => finishes_child hne hliteral.1 rfl (fun _ => id) (fun _ => id) fun name => ?_
    obtain ⟨q, hq, hfollows, hrun⟩ := hrun name
    refine ⟨q, hq, hrun.help, hfollows.asLocal, fun e' => ?_⟩
    simp [worldOf, peersOf, hfollows.count_ncTest, hnc, hrun.master, hrun.dir_eq, hA, hx, eq_comm]
  have hsecond : ∀ es e, Finishes (worldOf environments via port more A B
      (slaveHost po.masterRoot, port) s) (.command slave) es e ↔ e = y ∧ es = [y] := by
    refine fun es e => finishes_child hne hliteral.2 rfl (fun _ => id) (fun _ => id) fun name => ?_
    obtain ⟨q, hq, hfollows, hrun⟩ := hrun' name
    have haddress := hrun.address_eq
    rw [masterAddress_slaveArg port hhost, Option.some.injEq] at haddress
    refine ⟨q, hq, hrun.help, hfollows.asLocal, fun e' => ?_⟩
    simp [worldOf, peersOf, hfollows.count_ncTest, hnc, hrun.sides.2, hrun.dir_eq, hB,
      ← haddress, hy, eq_comm]
  constructor
  · intro hfin
    have htwo : ∀ word, (children po word).length = 2 := fun word => by
      simp [children, hhelp, hlocal, hmaster, hslave]
    rcases finishes_cases h hhelp id hfin with
      ⟨hl, -⟩ | ⟨child, hone⟩ | ⟨_, _, -, hnone⟩ |
        ⟨word, first, second, es₁, es₂, e₁, e₂, hall, hcap, hm, hs, rfl, rfl⟩
    · rw [hl] at hlocal
      cases hlocal
    · have hlen := htwo []
      rw [hone] at hlen
      cases hlen
    · cases hcapture.symm.trans hnone
    · obtain rfl : printNumber port.toNat = word := Option.some.inj (hcapture.symm.trans hcap)
      obtain ⟨rfl, rfl⟩ : master = first ∧ slave = second := by simpa [hchildren] using hall
      obtain ⟨rfl, rfl⟩ := (hfirst es₁ e₁).mp hm
      obtain ⟨rfl, rfl⟩ := (hsecond es₂ e₂).mp hs
      exact ⟨rfl, rfl⟩
  · rintro ⟨rfl, rfl⟩
    exact .twoRoots _ po (printNumber port.toNat) master slave [x] [y] x y h id hchildren hcapture
      ((hfirst _ _).mpr ⟨rfl, rfl⟩) ((hsecond _ _).mpr ⟨rfl, rfl⟩)

/-- **`jpgsync` synchronises two directories.** It starts a master and a
slave in them, where the words of their commands mean nothing to a shell,
and when a session that hits no defect is over it returns zero, and nothing
else, and each directory has exactly the images of both. -/
theorem synchronises (port : UInt16) (more : Bytes)
    (hf : Forwardable (printNumber port.toNat) ts)
    (h : JpgsyncOptions.parse (prog :: ts) = .ok po) (hhelp : po.help = false)
    (hlocal : po.count .asLocal = false) (hmaster : po.count .master = false)
    (hslave : po.count .slave = false) (hnc : po.count .ncTest = false)
    (hhost : ∀ c ∈ po.masterRoot.hostname, isSpace c = false)
    (hne : environments.Nonempty)
    (hliteral : ∀ child ∈ children po (printNumber port.toNat), child.Literal environments)
    (hroots : l.root = po.masterRoot.dir ∧ m.root = po.slaveRoot.dir)
    (hl : l.Sane) (hm : m.Sane) (hlm : l.FreeIn exif m) (hml : m.FreeIn exif l)
    (hvia : ∀ status, via (.exited status) = .exited status)
    (hs : (Session.system (l.site exif) (m.site exif)).Reaches
      (Session.each (Peer.Smooth ((l.site exif).common (m.site exif))))
      (Session.start (l.site exif) (m.site exif)) s)
    (hret : s.a.returned = true ∧ s.b.returned = true) :
    (∀ es e, Finishes (worldOf environments via port more (l.site exif) (m.site exif)
        (slaveHost po.masterRoot, port) s) (.run (prog :: ts)) es e ↔
          es = [.exited 0, .exited 0] ∧ e = .exited 0) ∧
      imagesOf exif s.a.host.disk.files = imagesOf exif l.files ∪ imagesOf exif m.files ∧
      imagesOf exif s.b.host.disk.files = imagesOf exif l.files ∪ imagesOf exif m.files := by
  have hready : Session.Ready exif (l.site exif) (m.site exif) := Listing.ready hl hm hlm hml
  have hhearing := Session.Hearing.of_smooth hready.directory.1 hready.directory.2 hready.packets
    hready.free hs
  -- nothing was logged on either side
  have ending : ∀ p : Peer, p.host.logger = Logger.start → p.returned = true →
      p.ending = some (.exited 0) := by
    intro p hlog hpret
    simp [Peer.ending, Peer.terminated, hlog, Logger.start, hpret]
  have hx := ending s.a hhearing.delivering.2.collected.logger hret.1
  have hy := ending s.b hhearing.delivering.1.collected.logger hret.2
  refine ⟨fun es e => ?_, Session.imagesOf_of_smooth hready hs hret⟩
  refine (finishes_of_session (A := l.site exif) (B := m.site exif) port more hf h hhelp hlocal
    hmaster hslave hnc hhost hne hliteral hroots.1 hroots.2 hx hy).trans ?_
  rw [exitStatus_two, hvia, code_exited, if_pos rfl]

/-- `jpgsync A B`: nothing is in `A`, and an image in `B`. -/
theorem synchronises_twoLocal : ∃ po s, JpgsyncOptions.parse twoLocal = .ok po ∧
    ∀ es e, Finishes (worldOf {Environment.noFiles (ascii "/")} id 5000 []
      (Session.emptyListing.site Session.exifOfImage)
      (Session.imageListing.site Session.exifOfImage) (slaveHost po.masterRoot, 5000) s)
      (.run twoLocal) es e ↔ es = [.exited 0, .exited 0] ∧ e = .exited 0 := by
  obtain ⟨s, -, hsmooth, hret⟩ := Session.reaches_listings
  have hvia : ∀ status, id (Ending.exited status) = .exited status := fun _ => rfl
  have hparse : ∃ po, JpgsyncOptions.parse twoLocal = .ok po ∧ po.help = false ∧
      po.count .asLocal = false ∧ po.count .master = false ∧ po.count .slave = false ∧
      po.count .ncTest = false ∧
      po.masterRoot = ⟨ascii "A", [], []⟩ ∧ po.slaveRoot = ⟨ascii "B", [], []⟩ :=
    ⟨_, rfl, rfl, rfl, rfl, rfl, rfl, rfl, rfl⟩
  obtain ⟨po, h, hhelp, hlocal, hmaster, hslave, hnc, hA, hB⟩ := hparse
  have hhost : ∀ c ∈ po.masterRoot.hostname, isSpace c = false := by
    rw [hA]
    exact List.forall_mem_nil _
  have hroots : Session.emptyListing.root = po.masterRoot.dir ∧
      Session.imageListing.root = po.slaveRoot.dir := by
    rw [hA, hB]
    exact ⟨rfl, rfl⟩
  have hf : Forwardable (printNumber (5000 : UInt16).toNat) [ascii "A", ascii "B"] :=
    forwardable_roots 5000 (by decide) (by decide) (by decide) (List.forall_mem_nil _)
  have hport : (extractPort 0 (printNumber (5000 : UInt16).toNat)).isSome = true := by
    rw [extractPort_printNumber]
    rfl
  exact ⟨po, s, h, (synchronises 5000 [] hf h hhelp hlocal hmaster hslave hnc hhost
    (Set.singleton_nonempty _)
    (fun child hchild => whole_twoLocal.child child ⟨po, _, h, hport, hchild⟩) hroots
    Session.sane_listings.1 Session.sane_listings.2 Session.free_listings.1
    Session.free_listings.2 hvia hsmooth hret).1⟩

end Jpgsync
