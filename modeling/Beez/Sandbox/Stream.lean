import Beez.Lib.Hops
import Beez.Text

/-! # Pipes between a sandboxed program and the proxy

A connection from the sandbox crosses a pipe of the relay inside, one of the forwarder on the host,
and one of the proxy. Each pipe copies both directions on two threads.
-/

open Beez.Lib

namespace Beez.Sandbox

/-- The pipes of one connection in a row. `up` are their copies of what the first peer sends, and
`down` their copies of what the last peer sends, in the order of the bytes. -/
structure Pipes where
  up : List (Hop Byte)
  down : List (Hop Byte)
deriving DecidableEq

inductive PipesMove where
  | up (move : HopMove Byte)
  | down (move : HopMove Byte)
deriving DecidableEq

def PipesMove.up? : PipesMove → Option (HopMove Byte)
  | .up move => some move
  | .down _ => none

def PipesMove.down? : PipesMove → Option (HopMove Byte)
  | .up _ => none
  | .down move => some move

namespace Pipes

/-- As many calls of `pipe`, none of which has copied anything. -/
def new (n : Nat) : Pipes := ⟨newRow n, newRow n⟩

def step (pipes : Pipes) : PipesMove → Pipes
  | .up move => { pipes with up := hopStep pipes.up move }
  | .down move => { pipes with down := hopStep pipes.down move }

/-- The scope in `pipe` ends when both copies have. -/
def returned (pipes : Pipes) (i : Nat) : Bool :=
  match pipes.up[i]?, pipes.down.reverse[i]? with
  | some up, some down => up.phase = .done ∧ down.phase = .done
  | _, _ => false

theorem run_up (pipes : Pipes) (moves : List PipesMove) :
    (runAll step pipes moves).up = runAll hopStep pipes.up (moves.filterMap PipesMove.up?) := by
  induction moves generalizing pipes with
  | nil => rfl
  | cons move rest ih =>
    cases move with
    | up move => exact ih _
    | down move => exact ih _

theorem run_down (pipes : Pipes) (moves : List PipesMove) :
    (runAll step pipes moves).down = runAll hopStep pipes.down (moves.filterMap PipesMove.down?) := by
  induction moves generalizing pipes with
  | nil => rfl
  | cons move rest ih =>
    cases move with
    | up move => exact ih _
    | down move => exact ih _

/-- What one direction keeps: the peer at its end gets a beginning of what the other sent, and the
end of the stream only after all of it unless a copy failed. -/
structure Keeps (row : List (Hop Byte)) : Prop where
  begun : ∀ first ∈ row.head?, ∀ last ∈ row.getLast?, last.delivered <+: first.sent
  ended : (∀ hop ∈ row, hop.broken = false) → ∀ first ∈ row.head?, ∀ last ∈ row.getLast?,
    last.shut = true → first.closed = true ∧ last.delivered = first.sent

theorem keeps_of_row {row : List (Hop Byte)} (linked : Row row) : Keeps row := by
  cases row with
  | nil => exact ⟨by simp, by simp⟩
  | cons first rest =>
    have last : (first :: rest).getLast? = some ((first :: rest).getLast (by simp)) :=
      List.getLast?_eq_some_getLast _
    refine ⟨?_, ?_⟩
    · rintro _ ⟨⟩ found hfound
      rw [last] at hfound
      obtain rfl := Option.mem_some.mp hfound
      exact linked.begun
    · rintro unbroken _ ⟨⟩ found hfound shut
      rw [last] at hfound
      obtain rfl := Option.mem_some.mp hfound
      exact linked.shut unbroken shut

theorem rows_of_run (n : Nat) (moves : List PipesMove) :
    Row (runAll step (new n) moves).up ∧ Row (runAll step (new n) moves).down := by
  rw [run_up, run_down]
  exact ⟨row_of_run n _, row_of_run n _⟩

/-- In any order of the copies and of both peers, each direction keeps its bytes, whatever fails in
the other one. -/
theorem pipes_keep_bytes (n : Nat) (moves : List PipesMove) :
    Keeps (runAll step (new n) moves).up ∧ Keeps (runAll step (new n) moves).down :=
  ⟨keeps_of_row (rows_of_run n moves).1, keeps_of_row (rows_of_run n moves).2⟩

/-- A copy takes a turn. -/
def PipesMove.isTurn : PipesMove → Bool
  | .up (.turn _ _) | .down (.turn _ _) => true
  | _ => false

/-- A turn of a copy that moves something. -/
def Turns (pipes : Pipes) (move : PipesMove) : Prop :=
  PipesMove.isTurn move = true ∧ pipes.step move ≠ pipes

def left (pipes : Pipes) : Nat := turnsLeft pipes.up + turnsLeft pipes.down

def Linked (pipes : Pipes) : Prop := Row pipes.up ∧ Row pipes.down

theorem Linked.step {pipes : Pipes} (linked : pipes.Linked) (move : PipesMove) :
    (pipes.step move).Linked := by
  cases move with
  | up move => exact ⟨hopStep_row linked.1 move, linked.2⟩
  | down move => exact ⟨linked.1, hopStep_row linked.2 move⟩

theorem Turns.less {pipes : Pipes} {move : PipesMove} (linked : pipes.Linked)
    (turns : Turns pipes move) : (pipes.step move).left < pipes.left := by
  obtain ⟨isTurn, change⟩ := turns
  unfold left
  match move, isTurn with
  | .up (.turn i n), _ =>
    rcases turnAt_left linked.1 n i with same | less
    · refine absurd ?_ change
      exact congrArg (fun up => { pipes with up }) same
    · exact Nat.add_lt_add_right less _
  | .down (.turn i n), _ =>
    rcases turnAt_left linked.2 n i with same | less
    · refine absurd ?_ change
      exact congrArg (fun down => { pipes with down }) same
    · exact Nat.add_lt_add_left less _

/-- Everything that `row` was given has come out of it, and all its copies have ended. -/
structure Delivered (row : List (Hop Byte)) : Prop where
  all : ∀ first ∈ row.head?, ∀ last ∈ row.getLast?, last.shut = true ∧ last.delivered = first.sent
  done : ∀ hop ∈ row, hop.phase = .done

theorem delivered_of_stuck {row : List (Hop Byte)} (linked : Row row) (ready : Ready row)
    (stuck : ∀ i, turnAt 0 i row = row) : Delivered row := by
  cases row with
  | nil => exact ⟨by simp, by simp⟩
  | cons first rest =>
    have passed := linked.stuck ready.unbroken (ready.closed first rfl) stuck
    refine ⟨?_, fun hop hmem => (passed hop hmem).1⟩
    intro first' hfirst last hlast
    have shut := (passed last (List.mem_of_getLast? hlast)).2
    exact ⟨shut, ((keeps_of_row linked).ended ready.unbroken first' hfirst last hlast shut).2⟩

theorem ready_of_turns {pipes : Pipes} (ready : Ready pipes.up ∧ Ready pipes.down)
    {move : PipesMove} (isTurn : PipesMove.isTurn move = true) :
    Ready (pipes.step move).up ∧ Ready (pipes.step move).down := by
  match move, isTurn with
  | .up (.turn i n), _ => exact ⟨ready.1.turnAt n i, ready.2⟩
  | .down (.turn i n), _ => exact ⟨ready.1, ready.2.turnAt n i⟩

theorem length_of_run (n : Nat) (moves : List PipesMove) :
    (runAll step (new n) moves).up.length = n ∧ (runAll step (new n) moves).down.length = n := by
  refine @runAll_invariant _ _ step (fun _ _ => True)
    (fun pipes => pipes.up.length = n ∧ pipes.down.length = n) ?_ _ _ ⟨List.length_replicate, List.length_replicate⟩ (Along.of_forall (fun _ _ => trivial) _ moves)
  rintro pipes (move | move) ⟨up, down⟩ -
  · exact ⟨(hopStep_length _ move).trans up, down⟩
  · exact ⟨up, (hopStep_length _ move).trans down⟩

theorem returned_of_done {pipes : Pipes} {i : Nat} (up : ∀ hop ∈ pipes.up, hop.phase = .done)
    (down : ∀ hop ∈ pipes.down, hop.phase = .done) (hup : i < pipes.up.length)
    (hdown : i < pipes.down.length) : pipes.returned i = true := by
  unfold returned
  have hdown : i < pipes.down.reverse.length := by simpa using hdown
  rw [List.getElem?_eq_getElem hup, List.getElem?_eq_getElem hdown]
  have h1 := up _ (List.getElem_mem hup)
  have h2 := down _ (List.mem_reverse.mp (List.getElem_mem hdown))
  simp only [h1, h2, and_self, decide_true]

instance (pipes : Pipes) (move : PipesMove) : Decidable (Turns pipes move) :=
  inferInstanceAs (Decidable (_ ∧ _))

/-- One peer sends `GET` and the other `OK`, and both end. -/
def peersEnd : List PipesMove := [.up (.sends [71, 69, 84] true), .down (.sends [79, 75] true)]

/-- One copy of a pipe from its first read to the end. -/
def wholeCopy (i : Nat) : List (HopMove Byte) := [.turn i 9, .turn i 9, .turn i 0, .turn i 0]

/-- The request crosses two pipes while the answer comes back. -/
def requestTurns : List PipesMove :=
  (wholeCopy 0).map .up ++ (wholeCopy 0).map .down ++ (wholeCopy 1).map .down ++ (wholeCopy 1).map .up

/-- The other peer has `GET`, and then the end of the stream. -/
example : ((runAll step (new 2) (peersEnd ++ requestTurns)).up.map fun hop => (hop.delivered, hop.shut)) =
    [([71, 69, 84], true), ([71, 69, 84], true)] := by
  decide +kernel

end Pipes

end Beez.Sandbox
