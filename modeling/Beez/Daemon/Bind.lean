import Beez.Lib.Machine
import Mathlib.Logic.Function.Basic

/-! # One daemon for one root

The socket path of a root is shared by every daemon that starts on it. Each step of a daemon on
that path is a step of its own here.
-/

open Beez.Lib

namespace Beez.Daemon.Bind

/-! ## The steps of one daemon -/

/-- Where a daemon is in `run`, as far as the socket goes. -/
inductive Phase where
  /-- About to bind the path. -/
  | binding
  /-- The path is in use, and the daemon is about to connect to it. -/
  | probing
  /-- Nothing answered, and the daemon is about to remove the file. -/
  | removing
  /-- About to bind the path again. -/
  | rebinding
  /-- The file is there, and the daemon is about to listen on it. -/
  | bound
  | serving
  /-- The loop is over, and the daemon is about to remove the file. It still listens. -/
  | closing
  | ended
deriving DecidableEq

/-- Connections to the socket of the daemon succeed. -/
def Phase.listens : Phase → Bool
  | serving | closing => true
  | _ => false

/-- The daemon has bound a socket and not removed it yet. -/
def Phase.isLive : Phase → Bool
  | bound | serving | closing => true
  | _ => false

/-- Whose socket the file at the path is. -/
inductive Owner where
  /-- A daemon that died before this history. -/
  | dead
  | daemon (number : Nat)
deriving DecidableEq

/-- The socket path of one root, and the daemons that start on it, by number. -/
structure World where
  path : Option Owner
  phases : Nat → Phase

inductive Event where
  /-- One daemon takes its next step. -/
  | advance (number : Nat)
  /-- The loop of one daemon ends. -/
  | stop (number : Nat)
  /-- One daemon dies, or an error ends it. Its file stays. -/
  | die (number : Nat)

namespace World

def goes (world : World) (number : Nat) (phase : Phase) : World :=
  { world with phases := Function.update world.phases number phase }

def isRunning (world : World) : Bool :=
  match world.path with
  | some (.daemon number) => (world.phases number).listens
  | _ => false

/-- `UnixListener::bind`, which fails to `taken` when the path is in use. -/
def bindSocket (world : World) (number : Nat) (taken : Phase) : World :=
  match world.path with
  | none => { world with path := some (.daemon number) }.goes number .bound
  | some _ => world.goes number taken

def advance (world : World) (number : Nat) : World :=
  match world.phases number with
  | .binding => world.bindSocket number .probing
  | .probing => world.goes number (if world.isRunning then .ended else .removing)
  | .removing =>
    match world.path with
    | none => world.goes number .ended
    | some _ => { world with path := none }.goes number .rebinding
  | .rebinding => world.bindSocket number .ended
  | .bound => world.goes number .serving
  -- Whatever file is there goes, and an error is not looked at.
  | .closing => { world with path := none }.goes number .ended
  | .serving | .ended => world

def step (world : World) : Event → World
  | .advance number => world.advance number
  | .stop number =>
    if world.phases number = .serving then world.goes number .closing else world
  | .die number => world.goes number .ended

/-- No daemon has started yet, and one that died may have left its file. -/
def initial (stale : Bool) : World := ⟨if stale then some .dead else none, fun _ => .binding⟩

/-! ## One daemon at a time -/

/-- No two daemons serve the root. -/
def OneServes (world : World) : Prop :=
  ∀ a b, world.phases a = .serving → world.phases b = .serving → a = b

/-- The file at the path is the socket of a daemon that is not gone. -/
def isHeld (world : World) : Bool :=
  match world.path with
  | some (.daemon number) => (world.phases number).isLive
  | _ => false

/-- A daemon that removes the file after its probe removes one whose daemon is gone. -/
def RemovesStale (world : World) : Event → Prop
  | .advance number => world.phases number = .removing → world.isHeld = false
  | .stop _ | .die _ => True

instance (world : World) : (event : Event) → Decidable (world.RemovesStale event)
  | .advance number => inferInstanceAs (Decidable (world.phases number = .removing → _))
  | .stop _ | .die _ => .isTrue trivial

/-- The file at the path is that of the daemon that has bound a socket. -/
def Held (world : World) : Prop :=
  ∀ number, (world.phases number).isLive = true → world.path = some (.daemon number)

variable {world : World} {number : Nat}

theorem Held.oneServes (held : world.Held) : world.OneServes := by
  intro a b ha hb
  have hpath := held a (by simp [ha, Phase.isLive])
  rw [held b (by simp [hb, Phase.isLive])] at hpath
  simpa using hpath.symm

theorem phases_goes (world : World) (number other : Nat) (phase : Phase) :
    (world.goes number phase).phases other = if other = number then phase else world.phases other :=
  Function.update_apply _ _ _ _

theorem Held.goes (held : world.Held) {phase : Phase} (idle : phase.isLive = false) :
    (world.goes number phase).Held := by
  intro other live
  rw [phases_goes] at live
  split at live
  · rw [idle] at live
    cases live
  · exact held other live

theorem Held.goes_live (held : world.Held) (live : (world.phases number).isLive = true)
    (phase : Phase) : (world.goes number phase).Held := by
  intro other hother
  rw [phases_goes] at hother
  split at hother
  · rename_i same
    exact same ▸ held number live
  · exact held other hother

/-- Nothing is live once the file is gone, and one daemon after it was bound again. -/
theorem Held.of_idle (idle : ∀ other, other ≠ number → (world.phases other).isLive = false)
    (path : Option Owner) {phase : Phase}
    (own : phase.isLive = true → path = some (.daemon number)) :
    ({ world with path := path }.goes number phase).Held := by
  intro other live
  rw [phases_goes] at live
  split at live
  · rename_i same
    exact same ▸ own live
  · rename_i hne
    have := idle other hne
    simp_all

theorem Held.idle_of_free (held : world.Held) (free : world.path = none) (other : Nat) :
    (world.phases other).isLive = false := by
  by_contra live
  have := held other (by simpa using live)
  rw [free] at this
  cases this

theorem Held.bindSocket (held : world.Held) {taken : Phase} (idle : taken.isLive = false) :
    (world.bindSocket number taken).Held := by
  unfold World.bindSocket
  split
  · rename_i free
    exact .of_idle (fun other _ => held.idle_of_free free other) _ fun _ => rfl
  · exact held.goes idle

theorem Held.advance (held : world.Held) (stale : world.RemovesStale (.advance number)) :
    (world.advance number).Held := by
  unfold World.advance
  cases hphase : world.phases number with
  | binding => exact held.bindSocket rfl
  | probing =>
    apply held.goes
    split <;> rfl
  | removing =>
    dsimp only
    cases hpath : world.path with
    | none => exact held.goes rfl
    | some owner =>
      refine .of_idle (fun other _ => ?_) none fun live => by cases live
      by_contra live
      have gone := stale hphase
      unfold isHeld at gone
      rw [held other (by simpa using live)] at gone
      exact live gone
  | rebinding => exact held.bindSocket rfl
  | bound => exact held.goes_live (by simp [hphase, Phase.isLive]) _
  | closing =>
    have own := held number (by simp [hphase, Phase.isLive])
    refine .of_idle (fun other hne => ?_) none fun live => by cases live
    by_contra live
    have hother := held other (by simpa using live)
    rw [own] at hother
    simp only [Option.some.injEq, Owner.daemon.injEq] at hother
    exact hne hother.symm
  | serving | ended => exact held

theorem step_held (held : world.Held) {event : Event} (stale : world.RemovesStale event) :
    (world.step event).Held := by
  cases event with
  | advance number => exact held.advance stale
  | stop number =>
    simp only [step]
    split
    · rename_i serves
      have live : (world.phases number).isLive = true := by rw [serves]; rfl
      exact held.goes_live live _
    · exact held
  | die number => exact held.goes rfl

theorem initial_held (stale : Bool) : (initial stale).Held := by
  intro number live
  cases live

/-- As long as a daemon that removes the file after its probe removes one whose daemon is gone,
at most one daemon serves the root. -/
theorem one_serves (left : Bool) {events : List Event}
    (stale : Along step RemovesStale (initial left) events) :
    (runAll step (initial left) events).OneServes := by
  have held : (runAll step (initial left) events).Held :=
    runAll_invariant (fun world event (held : world.Held) stale => step_held held stale)
      (initial_held left) stale
  exact held.oneServes

/-! ## Two daemons that find one stale file -/

/-- Both find the file that a dead daemon left. The first one removes it and serves, and the
second one removes the file of the first. -/
def bothFindStale : List Event :=
  [.advance 0, .advance 1, .advance 0, .advance 1, .advance 0, .advance 0, .advance 0,
    .advance 1, .advance 1, .advance 1]

theorem two_serve :
    (runAll step (initial true) bothFindStale).phases 0 = .serving ∧
      (runAll step (initial true) bothFindStale).phases 1 = .serving ∧
      ¬ (runAll step (initial true) bothFindStale).OneServes := by
  refine ⟨by decide, by decide, fun one => ?_⟩
  have := one 0 1 (by decide) (by decide)
  cases this

/-- A daemon takes the place of one that died, and a later one is refused. -/
theorem one_serves_replaced :
    (runAll step (initial true) [.advance 0, .advance 0, .advance 0, .advance 0, .advance 0,
      .advance 1, .advance 1]).OneServes := by
  apply one_serves
  refine ⟨?_, ?_, ?_, ?_, ?_, ?_, ?_, trivial⟩ <;> decide

end World

end Beez.Daemon.Bind
