import Jpgsync.Lib.StepSystem
import Jpgsync.Peer.Sides

/-!
# Session — two peers

Two peers in `Peer::Sync`, whose sync connections are matched: what `a`
uploads, `b` downloads over the link `ab`, and the other way round. A step
is a step of one thread of one peer, so a schedule is any interleaving of
all eight threads. Bytes on the sync connections are delivered in order
and without loss; an update packet stays on its link for ever and its
receiver picks any packet at any time, which covers loss, delay,
duplication and reordering.

The two directions are alike. A property of one direction is proved once,
for an uploading peer `X`, a downloading peer `Y` and their link, and
`directions_step` puts the two together.
-/

namespace Jpgsync

/-- What one side brings to a session. -/
structure Site where
  cfg : Config
  scans : List Scan
  disk : Disk

structure Session where
  a : Peer
  b : Peer
  ab : Link
  ba : Link

/-- One of the two peers. -/
inductive Side where
  | a
  | b
deriving DecidableEq, Repr

namespace Session

/-- The threads of both peers start. -/
def start (A B : Site) : Session where
  a := .start A.scans A.disk
  b := .start B.scans B.disk
  ab := .start
  ba := .start

def step (A B : Site) (s : Session) : Side × Peer.Act → Option Session
  | (.a, act) =>
    (s.a.step A.cfg s.ab s.ba act).map fun r => { s with a := r.1, ab := r.2.1, ba := r.2.2 }
  | (.b, act) =>
    (s.b.step B.cfg s.ba s.ab act).map fun r => { s with b := r.1, ba := r.2.1, ab := r.2.2 }

def system (A B : Site) : StepSystem Session (Side × Peer.Act) := ⟨step A B⟩

/-- A property of one direction: of the uploading site and peer, the
downloading site and peer, and their link. -/
abbrev DirectionProp := Site → Peer → Site → Peer → Link → Prop

/-- **The two directions.** What holds of a direction at the start and is
kept by the steps of its uploading and of its downloading peer holds of
both directions after every step; `ok` is what the run promises about the
steps. -/
theorem directions_step {D : DirectionProp} {A B : Site}
    (okUp okDown : Site → Peer → Site → Peer → Link → Peer.Act → Prop)
    (hX : ∀ {SX X SY Y L M act X' L' M'}, D SX X SY Y L → okUp SX X SY Y L act →
      X.step SX.cfg L M act = some (X', L', M') → D SX X' SY Y L')
    (hY : ∀ {SX X SY Y L M act Y' L' M'}, D SX X SY Y L → okDown SX X SY Y L act →
      Y.step SY.cfg M L act = some (Y', M', L') → D SX X SY Y' L')
    {s t : Session} {act : Side × Peer.Act}
    (h : D A s.a B s.b s.ab ∧ D B s.b A s.a s.ba)
    (hok : match act with
      | (.a, act) => okUp A s.a B s.b s.ab act ∧ okDown B s.b A s.a s.ba act
      | (.b, act) => okUp B s.b A s.a s.ba act ∧ okDown A s.a B s.b s.ab act)
    (hst : (system A B).step s act = some t) :
    D A t.a B t.b t.ab ∧ D B t.b A t.a t.ba := by
  obtain ⟨side, act⟩ := act
  cases side with
  | a =>
      obtain ⟨⟨p, up, down⟩, hp, rfl⟩ := Option.map_eq_some_iff.mp hst
      exact ⟨hX h.1 hok.1 hp, hY h.2 hok.2 hp⟩
  | b =>
      obtain ⟨⟨p, up, down⟩, hp, rfl⟩ := Option.map_eq_some_iff.mp hst
      exact ⟨hY h.1 hok.2 hp, hX h.2 hok.1 hp⟩

/-! ## One direction -/

/-- The other side of a session. -/
def other : Side → Side
  | .a => .b
  | .b => .a

def site (A B : Site) : Side → Site
  | .a => A
  | .b => B

def peer (s : Session) : Side → Peer
  | .a => s.a
  | .b => s.b

/-- The link on which a side uploads. -/
def uplink (s : Session) : Side → Link
  | .a => s.ab
  | .b => s.ba

/-- A property of the direction in which `side` uploads. -/
def Direction (D : DirectionProp) (A B : Site) (side : Side) (s : Session) : Prop :=
  D (site A B side) (s.peer side) (site A B (other side)) (s.peer (other side)) (s.uplink side)

/-- **One direction** moves with the steps of its uploading and of its
downloading peer. -/
theorem direction_step {D : DirectionProp} {A B : Site} {s t : Session} {side mover : Side}
    {act : Peer.Act}
    (hX : ∀ X' L' M', mover = side →
      (s.peer side).step (site A B side).cfg (s.uplink side) (s.uplink (other side)) act =
        some (X', L', M') →
      D (site A B side) X' (site A B (other side)) (s.peer (other side)) L')
    (hY : ∀ Y' L' M', mover = other side →
      (s.peer (other side)).step (site A B (other side)).cfg (s.uplink (other side))
        (s.uplink side) act = some (Y', M', L') →
      D (site A B side) (s.peer side) (site A B (other side)) Y' L')
    (hst : (system A B).step s (mover, act) = some t) : Direction D A B side t := by
  -- the mover uploads on one link and downloads on the other, so four cases
  cases mover with
  | a =>
      obtain ⟨⟨p, up, down⟩, hp, rfl⟩ := Option.map_eq_some_iff.mp hst
      cases side with
      | a => exact hX p up down rfl hp
      | b => exact hY p down up rfl hp
  | b =>
      obtain ⟨⟨p, up, down⟩, hp, rfl⟩ := Option.map_eq_some_iff.mp hst
      cases side with
      | a => exact hY p down up rfl hp
      | b => exact hX p up down rfl hp

/-! ## Runs with promises -/

/-- What a run promises about each step of a peer. -/
def each (ok : Peer → Peer.Act → Prop) (s : Session) : Side × Peer.Act → Prop
  | (.a, act) => ok s.a act
  | (.b, act) => ok s.b act

instance (ok : Peer → Peer.Act → Prop) [∀ p act, Decidable (ok p act)] (s : Session)
    (act : Side × Peer.Act) : Decidable (each ok s act) :=
  match act with
  | (.a, act) => inferInstanceAs (Decidable (ok s.a act))
  | (.b, act) => inferInstanceAs (Decidable (ok s.b act))

/-- **The two directions, while nobody calls `Fatal`.** -/
theorem live_directions {D : DirectionProp} {A B : Site} {ok : Peer → Peer.Act → Prop}
    (hX : ∀ {SX X SY Y L M act X' L' M'}, D SX X SY Y L → ok X act →
      X.step SX.cfg L M act = some (X', L', M') → X'.terminated = false → D SX X' SY Y L')
    (hY : ∀ {SX X SY Y L M act Y' L' M'}, D SX X SY Y L → ok Y act →
      Y.step SY.cfg M L act = some (Y', M', L') → Y'.terminated = false → D SX X SY Y' L')
    (hstart : D A (start A B).a B (start A B).b (start A B).ab ∧
      D B (start A B).b A (start A B).a (start A B).ba) {s : Session}
    (hs : (system A B).Reaches (each ok) (start A B) s) :
    s.a.terminated = true ∨ s.b.terminated = true ∨
      (D A s.a B s.b s.ab ∧ D B s.b A s.a s.ba) := by
  refine hs.invariant (I := fun s => s.a.terminated = true ∨ s.b.terminated = true ∨
    (D A s.a B s.b s.ab ∧ D B s.b A s.a s.ba)) ?_ (Or.inr (Or.inr hstart))
  -- a process that has ended takes no step, so its side stays ended
  have hdead : ∀ {p : Peer} {cfg up down act}, p.terminated = true →
      p.step cfg up down act = none := fun h => by simp [Peer.step, h]
  rintro s ⟨side, act⟩ t h hok hst
  cases side with
  | a =>
      obtain ⟨⟨p, up, down⟩, hp, rfl⟩ := Option.map_eq_some_iff.mp hst
      rcases h with ha | hb | ⟨hab, hba⟩
      · rw [hdead ha] at hp
        cases hp
      · exact Or.inr (Or.inl hb)
      · cases hlive : p.terminated with
        | true => exact Or.inl rfl
        | false => exact Or.inr (Or.inr ⟨hX hab hok hp hlive, hY hba hok hp hlive⟩)
  | b =>
      obtain ⟨⟨p, up, down⟩, hp, rfl⟩ := Option.map_eq_some_iff.mp hst
      rcases h with ha | hb | ⟨hab, hba⟩
      · exact Or.inl ha
      · rw [hdead hb] at hp
        cases hp
      · cases hlive : p.terminated with
        | true => exact Or.inr (Or.inl rfl)
        | false => exact Or.inr (Or.inr ⟨hY hab hok hp hlive, hX hba hok hp hlive⟩)

/-- Both peers are sound in every reachable state. -/
theorem sound_of_reachable {A B : Site} {s : Session}
    (hs : (system A B).Reachable (start A B) s) :
    s.a.Sound A.cfg A.scans ∧ s.b.Sound B.cfg B.scans := by
  refine hs.invariant (I := fun s => s.a.Sound A.cfg A.scans ∧ s.b.Sound B.cfg B.scans) ?_
    ⟨Peer.sound_start _ _ _, Peer.sound_start _ _ _⟩
  rintro s ⟨side, act⟩ t ⟨ha, hb⟩ hst
  cases side with
  | a =>
      obtain ⟨⟨p, up, down⟩, hp, rfl⟩ := Option.map_eq_some_iff.mp hst
      exact ⟨ha.step hp, hb⟩
  | b =>
      obtain ⟨⟨p, up, down⟩, hp, rfl⟩ := Option.map_eq_some_iff.mp hst
      exact ⟨ha, hb.step hp⟩

/-- A peer that has returned had not called `Fatal`, and both its threads
had come to their ends. -/
theorem returned_of_reachable {A B : Site} {s : Session}
    (hs : (system A B).Reachable (start A B) s) : s.a.ReturnedClosed ∧ s.b.ReturnedClosed := by
  refine (hs.invariant (I := fun s => (s.a.Sound A.cfg A.scans ∧ s.b.Sound B.cfg B.scans) ∧
    s.a.ReturnedClosed ∧ s.b.ReturnedClosed) ?_ ⟨⟨Peer.sound_start _ _ _,
      Peer.sound_start _ _ _⟩, nofun, nofun⟩).2
  rintro s ⟨side, act⟩ t ⟨⟨ha, hb⟩, hra, hrb⟩ hst
  cases side with
  | a =>
      obtain ⟨⟨p, up, down⟩, hp, rfl⟩ := Option.map_eq_some_iff.mp hst
      exact ⟨⟨ha.step hp, hb⟩, ha.returnedClosed_step hp, hrb⟩
  | b =>
      obtain ⟨⟨p, up, down⟩, hp, rfl⟩ := Option.map_eq_some_iff.mp hst
      exact ⟨⟨ha, hb.step hp⟩, hra, hb.returnedClosed_step hp⟩

/-! ## A small session -/

/-- Steps of the three threads of a peer that make a session. -/
def runs (side : Side) (n : Nat) : List (Side × Peer.Act) := List.replicate n (side, .run)

def uploads (side : Side) (ks : List Nat) : List (Side × Peer.Act) :=
  ks.map fun k => (side, .upload k)

def downloads (side : Side) (ks : List Nat) : List (Side × Peer.Act) :=
  ks.map fun k => (side, .download k)

/-- A side without images, in directory `A`. -/
def emptySite : Site := ⟨⟨.dccp, [65]⟩, [], ⟨[], [], []⟩⟩

/-- A side with the image `B/x` of three bytes. -/
def imageSite : Site :=
  ⟨⟨.dccp, [66]⟩, [⟨[66, slash, 120], some ⟨1, 0, 0, 0, 0⟩, List.cons_ne_nil _ _⟩],
    ⟨[([66, slash, 120], [1, 2, 3])], [], []⟩⟩

end Session
end Jpgsync
