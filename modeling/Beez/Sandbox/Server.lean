import Beez.Lib.Machine
import Mathlib.Algebra.Group.Nat.Defs
import Mathlib.Data.List.Perm.Basic

/-! # The accept loop of a server

One thread accepts connections and hands each to a thread of its own. The `Server` value is
dropped by another thread, which has to end the loop.
-/

open Beez.Lib

namespace Beez.Sandbox

def maxConnections : Nat := 256

/-- `fetch_add` and `fetch_sub` of an `AtomicUsize` wrap around. -/
def fetchAdd (count : Nat) : Nat := (count + 1) % 2 ^ 64

def fetchSub (count : Nat) : Nat := (count + (2 ^ 64 - 1)) % 2 ^ 64

theorem fetchAdd_of_lt {count : Nat} (h : count + 1 < 2 ^ 64) : fetchAdd count = count + 1 :=
  Nat.mod_eq_of_lt h

theorem fetchSub_succ (count : Nat) (h : count < 2 ^ 64) : fetchSub (count + 1) = count := by
  unfold fetchSub
  omega

/-- The error kinds of `accept` that the loop tells apart. -/
inductive AcceptError where
  | interrupted
  | connectionAborted
  | permanent (error : String)
deriving DecidableEq

inductive ServerReport where
  | stoppedAccepting (error : String)
  | refused
deriving DecidableEq

def ServerReport.text : ServerReport → String
  | .stoppedAccepting error => s!"stopped accepting connections: {error}"
  | .refused => s!"refused a connection, {maxConnections} are already open"

/-- A connection comes from a client, or from the server that wakes its own loop. -/
inductive Peer (κ : Type*) where
  | client (client : κ)
  | waker
deriving DecidableEq

/-- Where the accept loop stands. -/
inductive LoopPhase (κ : Type*) where
  /-- It reads the stop flag. -/
  | checking
  | accepting
  /-- It accepted a connection and reads the stop flag again. -/
  | accepted (peer : Peer κ)
  /-- It adds to the count of live connections. -/
  | claiming (peer : Peer κ)
  /-- The count was at the limit, and it takes back what it added. -/
  | refusing (peer : Peer κ)
  /-- It owns a slot and starts the handler. -/
  | spawning (peer : Peer κ)
  | ended
deriving DecidableEq

namespace LoopPhase

variable {κ : Type*}

def isOver : LoopPhase κ → Bool
  | .ended => true
  | _ => false

/-- The connection that the loop took and has not dealt with. -/
def hand : LoopPhase κ → List (Peer κ)
  | .accepted peer | .claiming peer | .refusing peer | .spawning peer => [peer]
  | _ => []

/-- The connection in hand, once the second look at the flag let it through. -/
def passed : LoopPhase κ → List (Peer κ)
  | .claiming peer | .refusing peer | .spawning peer => [peer]
  | _ => []

/-- What the loop itself has added to the count. -/
def added : LoopPhase κ → Nat
  | .refusing _ | .spawning _ => 1
  | _ => 0

/-- The slots that the loop owns. -/
def owned : LoopPhase κ → Nat
  | .spawning _ => 1
  | _ => 0

/-- The steps that the loop still takes once the flag is set. -/
def left : LoopPhase κ → Nat
  | .claiming _ => 3
  | .accepting | .refusing _ | .spawning _ => 2
  | .checking | .accepted _ => 1
  | .ended => 0

end LoopPhase

/-- What the owner of the `Server` is doing. -/
inductive Owner where
  | using
  /-- It set the flag and wakes the loop. -/
  | waking
  /-- The wake connected, and it joins the thread. -/
  | joining
  | dropped
  /-- The wake failed, and the thread is left to itself. -/
  | left
deriving DecidableEq

/-- What became of a connection that the loop took. -/
inductive Fate where
  | handled
  | refused
  /-- It was closed because the server stops. -/
  | closed
deriving DecidableEq

/-- `arrived` and `fates` record every connection and what became of it. -/
structure Server (κ : Type*) where
  stop : Bool
  live : Nat
  reportedLimit : Bool
  reports : List ServerReport
  backlog : List (Peer κ)
  phase : LoopPhase κ
  handling : List (Peer κ)
  owner : Owner
  arrived : List (Peer κ)
  fates : List (Peer κ × Fate)
  finished : List (Peer κ)

inductive ServerMove (κ : Type*) where
  | arrives (client : κ)
  /-- The loop takes its next step. `accept` fails, or blocks until there is a connection. -/
  | turn (failure : Option AcceptError)
  /-- A handler ends and drops its slot. -/
  | finishes (i : Nat)
  | stops
  | wakes (connected : Bool)
  | joins
deriving DecidableEq

variable {κ : Type*}

namespace Server

/-- `Server::spawn`. -/
def new : Server κ :=
  { stop := false, live := 0, reportedLimit := false, reports := [], backlog := [],
    phase := .checking, handling := [], owner := .using, arrived := [], fates := [],
    finished := [] }

/-- The loop after an error of `accept`. -/
def failed (server : Server κ) : AcceptError → Server κ
  | .interrupted | .connectionAborted => { server with phase := .checking }
  | .permanent error =>
    { server with
      phase := .ended
      reports := server.reports ++ [.stoppedAccepting error] }

/-- One step of the accept loop. -/
def turn (server : Server κ) (failure : Option AcceptError) : Server κ :=
  match server.phase with
  | .checking => { server with phase := if server.stop then .ended else .accepting }
  | .accepting =>
    match failure, server.backlog with
    | some error, _ => server.failed error
    | none, [] => server
    | none, peer :: backlog => { server with backlog, phase := .accepted peer }
  | .accepted peer =>
    if server.stop then
      { server with phase := .ended, fates := server.fates ++ [(peer, .closed)] }
    else { server with phase := .claiming peer }
  | .claiming peer =>
    { server with
      live := fetchAdd server.live
      phase := if maxConnections ≤ server.live then .refusing peer else .spawning peer }
  | .refusing peer =>
    { server with
      live := fetchSub server.live
      reports := if server.reportedLimit then server.reports else server.reports ++ [.refused]
      reportedLimit := true
      phase := .checking
      fates := server.fates ++ [(peer, .refused)] }
  | .spawning peer =>
    { server with
      handling := server.handling ++ [peer]
      phase := .checking
      fates := server.fates ++ [(peer, .handled)] }
  | .ended => server

/-- `Drop` of a `ConnectionSlot`, when the handler with it ends. -/
def finish (server : Server κ) (i : Nat) : Server κ :=
  match server.handling[i]? with
  | none => server
  | some peer =>
    { server with
      handling := server.handling.eraseIdx i
      live := fetchSub server.live
      finished := peer :: server.finished }

def step (server : Server κ) : ServerMove κ → Server κ
  | .arrives client =>
    { server with
      backlog := server.backlog ++ [.client client]
      arrived := server.arrived ++ [.client client] }
  | .turn failure => server.turn failure
  | .finishes i => server.finish i
  -- `Drop` of the `Server`: the flag, the wake, and the join if it was woken.
  | .stops => if server.owner = .using then { server with stop := true, owner := .waking } else server
  | .wakes connected =>
    if server.owner = .waking then
      if connected then
        { server with
          backlog := server.backlog ++ [.waker]
          arrived := server.arrived ++ [.waker]
          owner := .joining }
      else { server with owner := .left }
    else server
  | .joins =>
    if server.owner = .joining ∧ server.phase.isOver then { server with owner := .dropped } else server

/-! ## Slots -/

def handledOf (fates : List (Peer κ × Fate)) : List (Peer κ) :=
  (fates.filter fun fate => fate.2 = .handled).map Prod.fst

@[simp] theorem handledOf_append (fates more : List (Peer κ × Fate)) :
    handledOf (fates ++ more) = handledOf fates ++ handledOf more := by
  simp [handledOf]

@[simp] theorem handledOf_single (peer : Peer κ) (fate : Fate) :
    handledOf [(peer, fate)] = if fate = .handled then [peer] else [] := by
  by_cases h : fate = .handled <;> simp [handledOf, h]

/-- The count is the number of handlers, but for what the loop added and did not use yet, and every
connection has one fate, in the order of the arrivals. -/
structure Accounts (server : Server κ) : Prop where
  live : server.live = server.handling.length + server.phase.added
  room : server.handling.length + server.phase.owned ≤ maxConnections
  arrived : server.arrived = server.fates.map Prod.fst ++ server.phase.hand ++ server.backlog
  handled : (handledOf server.fates).Perm (server.finished ++ server.handling)
  reported : server.reports.count .refused = if server.reportedLimit then 1 else 0
  limit : server.reportedLimit = true ↔ ∃ peer, (peer, .refused) ∈ server.fates

theorem new_accounts : (new : Server κ).Accounts :=
  ⟨rfl, by simp [new, LoopPhase.owned], rfl, by simp [new, handledOf], rfl, by simp [new]⟩

theorem Accounts.failed {server : Server κ} (accounts : server.Accounts)
    (accepting : server.phase = .accepting) (error : AcceptError) : (server.failed error).Accounts := by
  obtain ⟨live, room, arrived, handled, reported, limit⟩ := accounts
  rw [accepting] at live room arrived
  cases error with
  | interrupted => exact ⟨live, room, arrived, handled, reported, limit⟩
  | connectionAborted => exact ⟨live, room, arrived, handled, reported, limit⟩
  | permanent error =>
    refine ⟨live, room, arrived, handled, Eq.trans ?_ reported, limit⟩
    simp [Server.failed]

theorem Accounts.turn {server : Server κ} (accounts : server.Accounts)
    (failure : Option AcceptError) : (server.turn failure).Accounts := by
  have failed := accounts.failed
  obtain ⟨live, room, arrived, handled, reported, limit⟩ := accounts
  unfold Server.turn
  split
  · next hphase =>
    rw [hphase] at live room arrived
    refine ⟨?_, ?_, ?_, handled, reported, limit⟩
    all_goals dsimp only; split <;> assumption
  · next hphase =>
    rw [hphase] at live room arrived
    split
    · exact failed hphase _
    · refine ⟨?_, ?_, ?_, handled, reported, limit⟩ <;> rwa [hphase]
    · next peer backlog hbacklog =>
      refine ⟨live, room, ?_, handled, reported, limit⟩
      rw [arrived, hbacklog]
      simp [LoopPhase.hand]
  · next peer hphase =>
    rw [hphase] at live room arrived
    split
    · refine ⟨live, room, ?_, ?_, reported, ?_⟩
      · simp [arrived, LoopPhase.hand]
      · simpa using handled
      · simpa using limit
    · exact ⟨live, room, arrived, handled, reported, limit⟩
  · next peer hphase =>
    -- The one place where the count goes up. It is at most the limit here, so it does not wrap.
    rw [hphase] at live room arrived
    simp only [LoopPhase.added, LoopPhase.owned, Nat.add_zero] at live room
    have small : fetchAdd server.live = server.live + 1 := by
      apply fetchAdd_of_lt
      rw [live]
      unfold maxConnections at room
      omega
    refine ⟨?_, ?_, ?_, handled, reported, limit⟩ <;> dsimp only
    · rw [small, live]
      split <;> rfl
    · split
      · exact room
      · simp only [LoopPhase.owned]
        omega
    · split <;> exact arrived
  · next peer hphase =>
    rw [hphase] at live room arrived
    refine ⟨?_, room, ?_, ?_, ?_, ?_⟩ <;> dsimp only
    · rw [live]
      apply fetchSub_succ
      unfold maxConnections at room
      omega
    · simp [arrived, LoopPhase.hand]
    · simpa using handled
    · split
      · next told => simpa [told] using reported
      · next told => simpa [told] using reported
    · simp
  · next peer hphase =>
    rw [hphase] at live room arrived
    refine ⟨?_, ?_, ?_, ?_, reported, ?_⟩ <;> dsimp only
    · simpa [LoopPhase.added] using live
    · simpa [LoopPhase.owned] using room
    · simp [arrived, LoopPhase.hand]
    · simpa [← List.append_assoc] using handled.append_right [peer]
    · simpa using limit
  · exact ⟨live, room, arrived, handled, reported, limit⟩

theorem Accounts.finish {server : Server κ} (accounts : server.Accounts) (i : Nat) :
    (server.finish i).Accounts := by
  obtain ⟨live, room, arrived, handled, reported, limit⟩ := accounts
  unfold Server.finish
  split
  · exact ⟨live, room, arrived, handled, reported, limit⟩
  · next peer hget =>
    obtain ⟨hi, hpeer⟩ := List.getElem?_eq_some_iff.mp hget
    have length := List.length_eraseIdx_of_lt hi
    refine ⟨?_, ?_, arrived, ?_, reported, limit⟩ <;> dsimp only
    · have : server.phase.added ≤ 1 := by cases server.phase <;> simp [LoopPhase.added]
      rw [live, length, ← fetchSub_succ (server.handling.length - 1 + server.phase.added)]
      · congr 1
        omega
      · unfold maxConnections at room
        omega
    · rw [length]
      omega
    · refine handled.trans ?_
      have : server.handling.Perm (peer :: server.handling.eraseIdx i) := by
        rw [← hpeer]
        exact (List.getElem_cons_eraseIdx_perm hi).symm
      exact (this.append_left _).trans List.perm_middle

theorem Accounts.step {server : Server κ} (accounts : server.Accounts) (move : ServerMove κ) :
    (server.step move).Accounts := by
  unfold Server.step
  split
  · obtain ⟨live, room, arrived, handled, reported, limit⟩ := accounts
    exact ⟨live, room, by simp [arrived], handled, reported, limit⟩
  · exact accounts.turn _
  · exact accounts.finish _
  · split
    · obtain ⟨live, room, arrived, handled, reported, limit⟩ := accounts
      exact ⟨live, room, arrived, handled, reported, limit⟩
    · exact accounts
  · split
    · obtain ⟨live, room, arrived, handled, reported, limit⟩ := accounts
      split
      · exact ⟨live, room, by simp [arrived], handled, reported, limit⟩
      · exact ⟨live, room, arrived, handled, reported, limit⟩
    · exact accounts
  · split
    · obtain ⟨live, room, arrived, handled, reported, limit⟩ := accounts
      exact ⟨live, room, arrived, handled, reported, limit⟩
    · exact accounts

theorem accounts_of_run (moves : List (ServerMove κ)) :
    (runAll step (new : Server κ) moves).Accounts :=
  runAll_invariant (fun _ move h _ => h.step move) new_accounts
    (Along.of_forall (fun _ _ => trivial) _ _)

/-- At most 256 handlers run at a time, and a connection is refused exactly when that many do. -/
theorem server_bounds_its_handlers (moves : List (ServerMove κ)) (failure : Option AcceptError) :
    (runAll step (new : Server κ) moves).Accounts ∧
      (runAll step (new : Server κ) moves).handling.length ≤ maxConnections ∧
      ∀ peer, (runAll step (new : Server κ) moves).phase = .claiming peer →
        (((runAll step (new : Server κ) moves).turn failure).phase = .refusing peer ↔
          (runAll step (new : Server κ) moves).handling.length = maxConnections) := by
  have accounts := accounts_of_run moves
  refine ⟨accounts, Nat.le_of_add_right_le accounts.room, ?_⟩
  intro peer hphase
  have live := accounts.live
  have room := accounts.room
  rw [hphase] at live room
  simp only [LoopPhase.added, LoopPhase.owned, Nat.add_zero] at live room
  unfold Server.turn
  rw [hphase]
  dsimp only
  split
  · simp only [true_iff]
    omega
  · simp only [reduceCtorEq, false_iff]
    omega

/-! ## The end of the loop -/

/-- What the flag, the wake and the join owe each other. -/
structure Ending (server : Server κ) : Prop where
  flag : server.owner = .using ↔ server.stop = false
  waker : .waker ∈ server.arrived → server.stop = true
  passed : .waker ∉ server.phase.passed
  handled : .waker ∉ handledOf server.fates
  woken : server.owner = .joining → server.phase = .accepting → server.backlog ≠ []
  dropped : server.owner = .dropped → server.phase = .ended
  ended : server.phase = .ended → server.stop = true ∨
    ∃ error, .stoppedAccepting error ∈ server.reports

theorem new_ending : (new : Server κ).Ending :=
  ⟨by simp [new], by simp [new], by simp [new, LoopPhase.passed], by simp [new, handledOf],
    by simp [new], by simp [new], by simp [new]⟩

theorem Ending.turn {server : Server κ} (accounts : server.Accounts) (ending : server.Ending)
    (failure : Option AcceptError) : (server.turn failure).Ending := by
  obtain ⟨flag, waker, passed, handled, woken, dropped, ended⟩ := ending
  have arrived := accounts.arrived
  unfold Server.turn
  split
  · next hphase =>
    rw [hphase] at dropped
    -- The flag is down whenever the loop goes on to `accept`, so the owner does not join yet.
    by_cases stopped : server.stop = true
    · rw [if_pos stopped]
      exact ⟨flag, waker, by simp [LoopPhase.passed], handled, by simp, by simp, by simp [stopped]⟩
    · rw [if_neg stopped]
      have using_ : server.owner = .using := flag.mpr (by simpa using stopped)
      refine ⟨flag, waker, by simp [LoopPhase.passed], handled, ?_, ?_, by simp⟩ <;> simp [using_]
  · next hphase =>
    rw [hphase] at dropped
    split
    · next error =>
      cases error with
      | permanent error =>
        refine ⟨flag, waker, by simp [failed, LoopPhase.passed], handled, by simp [failed],
          by simp [failed], ?_⟩
        intro _
        exact .inr ⟨error, by simp [failed]⟩
      | interrupted =>
        refine ⟨flag, waker, by simp [failed, LoopPhase.passed], handled, by simp [failed], ?_,
          by simp [failed]⟩
        intro h
        cases dropped h
      | connectionAborted =>
        refine ⟨flag, waker, by simp [failed, LoopPhase.passed], handled, by simp [failed], ?_,
          by simp [failed]⟩
        intro h
        cases dropped h
    · exact ⟨flag, waker, passed, handled, woken, by rw [hphase]; exact dropped, ended⟩
    · refine ⟨flag, waker, by simp [LoopPhase.passed], handled, by simp, ?_, by simp⟩
      intro h
      cases dropped h
  · next peer hphase =>
    rw [hphase] at arrived dropped
    split
    · next stopped =>
      refine ⟨flag, waker, by simp [LoopPhase.passed], by simpa using handled, by simp, by simp, ?_⟩
      simp [stopped]
    · next running =>
      refine ⟨flag, waker, ?_, handled, by simp, ?_, by simp⟩
      · simp only [LoopPhase.passed, List.mem_singleton]
        rintro rfl
        exact running (waker (by simp [arrived, LoopPhase.hand]))
      · intro h
        cases dropped h
  · next peer hphase =>
    rw [hphase] at passed dropped
    refine ⟨flag, waker, ?_, handled, ?_, ?_, ?_⟩ <;> dsimp only
    · split <;> exact passed
    · split <;> simp
    · intro h
      cases dropped h
    · split <;> simp
  · next peer hphase =>
    rw [hphase] at dropped
    refine ⟨flag, waker, by simp [LoopPhase.passed], by simpa using handled, by simp, ?_, by simp⟩
    intro h
    cases dropped h
  · next peer hphase =>
    rw [hphase] at passed dropped
    refine ⟨flag, waker, by simp [LoopPhase.passed], ?_, by simp, ?_, by simp⟩
    · simp only [LoopPhase.passed] at passed
      simp only [handledOf_append, handledOf_single, ↓reduceIte, List.mem_append, not_or]
      exact ⟨handled, passed⟩
    · intro h
      cases dropped h
  · exact ⟨flag, waker, passed, handled, woken, dropped, ended⟩

theorem finish_frame (server : Server κ) (i : Nat) :
    (server.finish i).stop = server.stop ∧ (server.finish i).owner = server.owner ∧
      (server.finish i).arrived = server.arrived ∧ (server.finish i).phase = server.phase ∧
      (server.finish i).fates = server.fates ∧ (server.finish i).backlog = server.backlog ∧
      (server.finish i).reports = server.reports := by
  unfold finish
  split <;> simp

theorem Ending.step {server : Server κ} (accounts : server.Accounts) (ending : server.Ending)
    (move : ServerMove κ) : (server.step move).Ending := by
  have hturn := ending.turn accounts
  have ⟨flag, waker, passed, handled, woken, dropped, ended⟩ := ending
  unfold Server.step
  split
  · refine ⟨flag, by simpa using waker, passed, handled, ?_, dropped, ended⟩
    simp
  · exact hturn _
  · next i =>
    obtain ⟨h1, h2, h3, h4, h5, h6, h7⟩ := finish_frame server i
    constructor <;> simpa only [h1, h2, h3, h4, h5, h6, h7]
  · split
    · exact ⟨by simp, by simp, passed, handled, by simp, by simp, by simp⟩
    · exact ending
  · split
    · next waking =>
      have stopped : server.stop = true := by
        by_contra h
        rw [Bool.not_eq_true, ← flag, waking] at h
        cases h
      split
      · exact ⟨by simp [stopped], by simp [stopped], passed, handled, by simp, by simp,
          by simp [stopped]⟩
      · exact ⟨by simp [stopped], by simp [stopped], passed, handled, by simp, by simp,
          by simp [stopped]⟩
    · exact ending
  · split
    · next joined =>
      have hphase : server.phase = .ended := by
        cases h : server.phase <;> simp [h, LoopPhase.isOver] at joined ⊢
      refine ⟨?_, waker, passed, handled, by simp, by simp [hphase], ended⟩
      rw [joined.1] at flag
      simpa using flag
    · exact ending

theorem ending_of_run (moves : List (ServerMove κ)) :
    (runAll step (new : Server κ) moves).Ending := by
  refine (runAll_invariant
    (fun (server : Server κ) move (h : server.Accounts ∧ server.Ending) _ =>
      ⟨h.1.step move, h.2.step h.1 move⟩) ⟨new_accounts, new_ending⟩
    (Along.of_forall (fun _ _ => trivial) _ moves)).2

/-- `late` became of connections since `start`, and only the one that had passed the flag there can
have been handled. -/
structure Stopped (start server : Server κ) : Prop where
  stop : server.stop = true
  late : ∃ late, server.fates = start.fates ++ late ∧
    (handledOf late ++ server.phase.passed).Sublist start.phase.passed

theorem Stopped.turn {start server : Server κ} (stopped : Stopped start server)
    (failure : Option AcceptError) : Stopped start (server.turn failure) := by
  obtain ⟨stop, late, hfates, hlate⟩ := stopped
  have fewer : (handledOf late).Sublist start.phase.passed :=
    (List.sublist_append_left _ _).trans hlate
  unfold Server.turn
  split
  · rw [if_pos stop]
    exact ⟨stop, late, hfates, by simpa [LoopPhase.passed] using fewer⟩
  · split
    · next error =>
      cases error <;> exact ⟨stop, late, hfates, by simpa [failed, LoopPhase.passed] using fewer⟩
    · exact ⟨stop, late, hfates, hlate⟩
    · exact ⟨stop, late, hfates, by simpa [LoopPhase.passed] using fewer⟩
  · next peer _ =>
    rw [if_pos stop]
    refine ⟨stop, late ++ [(peer, .closed)], by simp [hfates], ?_⟩
    simpa [LoopPhase.passed] using fewer
  · next peer hphase =>
    rw [hphase] at hlate
    refine ⟨stop, late, hfates, ?_⟩
    dsimp only
    split <;> exact hlate
  · next peer hphase =>
    refine ⟨stop, late ++ [(peer, .refused)], by simp [hfates], ?_⟩
    simpa [LoopPhase.passed] using fewer
  · next peer hphase =>
    rw [hphase] at hlate
    refine ⟨stop, late ++ [(peer, .handled)], by simp [hfates], ?_⟩
    simpa [LoopPhase.passed] using hlate
  · exact ⟨stop, late, hfates, hlate⟩

theorem Stopped.step {start server : Server κ} (stopped : Stopped start server)
    (move : ServerMove κ) : Stopped start (server.step move) := by
  have ⟨stop, hlate⟩ := stopped
  unfold Server.step
  split
  · exact ⟨stop, hlate⟩
  · exact stopped.turn _
  · next i =>
    obtain ⟨h1, -, -, h4, h5, -, -⟩ := finish_frame server i
    exact ⟨h1.trans stop, by rw [h4, h5]; exact hlate⟩
  · split <;> exact ⟨by simp [stop], hlate⟩
  · split
    · split <;> exact ⟨stop, hlate⟩
    · exact stopped
  · split
    · exact ⟨stop, hlate⟩
    · exact stopped

theorem stopped_of_run {start : Server κ} (stop : start.stop = true)
    (moves : List (ServerMove κ)) : Stopped start (runAll step start moves) := by
  refine runAll_invariant (fun _ move h _ => h.step move) ⟨stop, [], by simp, ?_⟩
    (Along.of_forall (fun _ _ => trivial) _ moves)
  simp [handledOf]

def ServerMove.isTurn : ServerMove κ → Bool
  | .turn _ => true
  | _ => false

theorem left_step (server : Server κ) {move : ServerMove κ} (h : ServerMove.isTurn move = false) :
    (server.step move).phase = server.phase := by
  unfold Server.step
  split
  · rfl
  · cases h
  · exact (finish_frame server _).2.2.2.1
  · split <;> rfl
  · split
    · split <;> rfl
    · rfl
  · split <;> rfl

/-- Once the flag is set, each turn of the loop brings it closer to its end, if `accept` finds a
connection. -/
theorem left_turn {server : Server κ} (stop : server.stop = true)
    (woken : server.phase = .accepting → server.backlog ≠ []) (failure : Option AcceptError) :
    (server.turn failure).phase.left ≤ server.phase.left - 1 := by
  unfold Server.turn
  split
  · next hphase => simp [hphase, stop, LoopPhase.left]
  · next hphase =>
    split
    · next error => cases error <;> simp [hphase, failed, LoopPhase.left]
    · next empty => exact absurd empty (woken hphase)
    · simp [hphase, LoopPhase.left]
  · next hphase => simp [hphase, stop, LoopPhase.left]
  · next hphase =>
    rw [hphase]
    dsimp only
    split <;> simp [LoopPhase.left]
  · next hphase => simp [hphase, LoopPhase.left]
  · next hphase => simp [hphase, LoopPhase.left]
  · next hphase => simp [hphase, LoopPhase.left]

theorem left_le (phase : LoopPhase κ) : phase.left ≤ 3 := by
  cases phase <;> simp [LoopPhase.left]

theorem left_eq_zero {phase : LoopPhase κ} : phase.left = 0 ↔ phase = .ended := by
  cases phase <;> simp [LoopPhase.left]

/-- The owner has woken the loop. It may have joined it already. -/
def Woken (server : Server κ) : Prop :=
  server.owner = .joining ∨ server.owner = .dropped

theorem Woken.step {server : Server κ} (woken : server.Woken) (move : ServerMove κ) :
    (server.step move).Woken := by
  unfold Server.step
  split
  · exact woken
  · have same (failure : Option AcceptError) : (server.turn failure).owner = server.owner := by
      unfold Server.turn failed
      repeat' split
      all_goals rfl
    unfold Woken
    rwa [same]
  · unfold Woken
    rwa [(finish_frame server _).2.1]
  · split
    · next h => rcases woken with w | w <;> rw [h] at w <;> cases w
    · exact woken
  · split
    · next h => rcases woken with w | w <;> rw [h] at w <;> cases w
    · exact woken
  · split
    · exact .inr rfl
    · exact woken

theorem Woken.stop {server : Server κ} (woken : server.Woken) (ending : server.Ending) :
    server.stop = true := by
  by_contra h
  rw [Bool.not_eq_true, ← ending.flag] at h
  rcases woken with w | w <;> rw [h] at w <;> cases w

theorem Woken.backlog {server : Server κ} (woken : server.Woken) (ending : server.Ending)
    (accepting : server.phase = .accepting) : server.backlog ≠ [] := by
  rcases woken with joining | dropped
  · exact ending.woken joining accepting
  · rw [ending.dropped dropped] at accepting
    cases accepting

theorem ended_of_turns {server : Server κ} (accounts : server.Accounts) (ending : server.Ending)
    (woken : server.Woken) {moves : List (ServerMove κ)}
    (turns : 3 ≤ moves.countP ServerMove.isTurn) : (runAll step server moves).phase = .ended := by
  have progress := @runAll_progress _ _ step
    (fun server : Server κ => server.Accounts ∧ server.Ending ∧ server.Woken)
    (fun server => server.phase.left) ServerMove.isTurn
    (fun _ move h => ⟨h.1.step move, h.2.1.step h.1 move, h.2.2.step move⟩)
    ?_ ?_ _ ⟨accounts, ending, woken⟩ moves
  · have := left_le server.phase
    rw [← left_eq_zero]
    omega
  all_goals
    intro server move ⟨_, ending, woken⟩
    have turned := left_turn (woken.stop ending) (woken.backlog ending)
  · by_cases h : ServerMove.isTurn move = true
    · cases move with
      | turn failure => exact Nat.le_trans (turned failure) (Nat.sub_le _ _)
      | _ => cases h
    · exact Nat.le_of_eq (congrArg _ (left_step server (by simpa using h)))
  · intro h
    cases move with
    | turn failure => exact turned failure
    | _ => cases h

/-- From the moment the flag is set no connection that the loop still has to take is handled, and
once the loop was woken three more turns end it, so that the join returns. -/
theorem server_stops (before after : List (ServerMove κ))
    (stop : (runAll step (new : Server κ) before).stop = true) :
    (∃ late, (runAll step (new : Server κ) (before ++ after)).fates =
        (runAll step (new : Server κ) before).fates ++ late ∧
      (handledOf late).Sublist (runAll step (new : Server κ) before).phase.passed) ∧
    .waker ∉ handledOf (runAll step (new : Server κ) (before ++ after)).fates ∧
    ((runAll step (new : Server κ) before).owner = .joining →
      3 ≤ after.countP ServerMove.isTurn →
      (runAll step (new : Server κ) (before ++ after ++ [.joins])).owner = .dropped) := by
  refine ⟨?_, (ending_of_run _).handled, ?_⟩
  · rw [runAll_append]
    obtain ⟨late, hfates, hlate⟩ := (stopped_of_run stop after).late
    exact ⟨late, hfates, (List.sublist_append_left _ _).trans hlate⟩
  · intro joining turns
    have ended := ended_of_turns (accounts_of_run before) (ending_of_run before) (.inl joining) turns
    have woken : (runAll step (runAll step (new : Server κ) before) after).Woken :=
      runAll_invariant (fun _ move h _ => h.step move) (.inl joining)
        (Along.of_forall (fun _ _ => trivial) _ after)
    rw [runAll_append, runAll_append]
    generalize runAll step (runAll step (new : Server κ) before) after = server at ended woken ⊢
    rw [runAll_cons, runAll_nil]
    unfold Server.step
    rcases woken with h | h <;> simp [h, ended, LoopPhase.isOver]

/-- A server whose owner lets it run ends its loop only on a permanent error. -/
theorem ended_without_stop (moves : List (ServerMove κ))
    (running : (runAll step (new : Server κ) moves).owner = .using)
    (ended : (runAll step (new : Server κ) moves).phase = .ended) :
    ∃ error, .stoppedAccepting error ∈ (runAll step (new : Server κ) moves).reports := by
  have ending := ending_of_run moves
  refine (ending.ended ended).resolve_left ?_
  rw [ending.flag.mp running]
  decide

theorem server_stops_in_use :
    (∃ late, (runAll step (new : Server Nat)
        ([.arrives 0, .turn none, .turn none, .turn none, .stops, .wakes true] ++
          [.turn none, .turn none, .turn none])).fates =
        (runAll step (new : Server Nat)
          [.arrives 0, .turn none, .turn none, .turn none, .stops, .wakes true]).fates ++ late ∧
      (handledOf late).Sublist (runAll step (new : Server Nat)
        [.arrives 0, .turn none, .turn none, .turn none, .stops, .wakes true]).phase.passed) ∧
    (runAll step (new : Server Nat)
      ([.arrives 0, .turn none, .turn none, .turn none, .stops, .wakes true] ++
        [.turn none, .turn none, .turn none] ++ [.joins])).owner = .dropped :=
  have h := @server_stops Nat
    [.arrives 0, .turn none, .turn none, .turn none, .stops, .wakes true]
    [.turn none, .turn none, .turn none] rfl
  ⟨h.1, h.2.2 rfl (by decide)⟩

end Server

end Beez.Sandbox
