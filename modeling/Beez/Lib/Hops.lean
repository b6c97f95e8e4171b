import Beez.Lib.Machine

/-! # Streams copied through a row of hops

Each hop reads what its source wrote, writes it on, and passes on the end of the input.
-/

namespace Beez.Lib

variable {α : Type*}

/-! ## One hop -/

/-- What a copy loop does next. -/
inductive HopPhase (α : Type*) where
  | reading
  /-- It read a chunk and has this much of it still to write. -/
  | writing (rest : List α)
  /-- The loop is over, and the end of the output comes next. -/
  | finishing
  | done
deriving DecidableEq

def HopPhase.held : HopPhase α → List α
  | .writing rest => rest
  | _ => []

/-- `sent` is all that the source wrote and `delivered` all that the target got. `shut` says that the
target saw the end. A hop with an error is `broken`. -/
structure Hop (α : Type*) where
  sent : List α
  closed : Bool
  unread : List α
  phase : HopPhase α
  delivered : List α
  shut : Bool
  broken : Bool
deriving DecidableEq

namespace Hop

def new : Hop α := ⟨[], false, [], .reading, [], false, false⟩

/-- The source writes, and perhaps ends. -/
def receive (hop : Hop α) (items : List α) (ends : Bool) : Hop α :=
  if hop.closed then hop
  else { hop with sent := hop.sent ++ items, unread := hop.unread ++ items, closed := ends }

/-- The next step of the loop, and what it writes. A step moves at most `n + 1` items, and a read
blocks until there are some or the source has ended. -/
def turn (hop : Hop α) (n : Nat) : Hop α × List α :=
  match hop.phase with
  | .reading =>
    if hop.unread = [] then
      if hop.closed then ({ hop with phase := .finishing }, []) else (hop, [])
    else
      ({ hop with
         unread := hop.unread.drop (n + 1)
         phase := .writing (hop.unread.take (n + 1)) }, [])
  | .writing rest =>
    ({ hop with
       delivered := hop.delivered ++ rest.take (n + 1)
       phase := if rest.drop (n + 1) = [] then .reading else .writing (rest.drop (n + 1)) },
     rest.take (n + 1))
  | .finishing => ({ hop with shut := true, phase := .done }, [])
  | .done => (hop, [])

/-- A read, a write or the end of the output fails. What was read and not written is lost. -/
def fail (hop : Hop α) : Hop α :=
  match hop.phase with
  | .reading | .writing _ => { hop with phase := .finishing, broken := true }
  | .finishing => { hop with phase := .done, broken := true }
  | .done => hop

/-- The target has a beginning of what was sent, and the rest is on the way if nothing failed. -/
structure Relays (hop : Hop α) : Prop where
  begun : hop.delivered <+: hop.sent
  whole : hop.broken = false → hop.delivered ++ (hop.phase.held ++ hop.unread) = hop.sent
  looping : hop.phase ≠ .finishing → hop.phase ≠ .done → hop.broken = false
  ended : hop.phase = .finishing ∨ hop.phase = .done → hop.broken = false →
    hop.closed = true ∧ hop.unread = []
  shut : hop.shut = true → hop.phase = .done
  done : hop.phase = .done → hop.broken = false → hop.shut = true

theorem new_relays : (new : Hop α).Relays :=
  ⟨List.prefix_refl _, fun _ => rfl, fun _ _ => rfl, by simp [new], by simp [new], by simp [new]⟩

theorem Relays.receive {hop : Hop α} (relays : hop.Relays) (items : List α) (ends : Bool) :
    (hop.receive items ends).Relays := by
  obtain ⟨begun, whole, looping, ended, shut, done⟩ := relays
  unfold Hop.receive
  split
  · exact ⟨begun, whole, looping, ended, shut, done⟩
  · next source =>
    refine ⟨begun.trans (List.prefix_append _ _), ?_, looping, ?_, shut, done⟩
    · intro unbroken
      simp [← whole unbroken]
    · intro done unbroken
      exact absurd (ended done unbroken).1 source

theorem Relays.turn {hop : Hop α} (relays : hop.Relays) (n : Nat) : (hop.turn n).1.Relays := by
  obtain ⟨begun, whole, looping, ended, shut, done⟩ := relays
  unfold Hop.turn
  split
  · next hphase =>
    rw [hphase] at whole looping
    have unbroken := looping (by simp) (by simp)
    have unshut : hop.shut = false := by
      rw [hphase] at shut
      simpa using shut
    have whole := whole unbroken
    simp only [HopPhase.held, List.nil_append] at whole
    split
    · next empty =>
      rw [empty] at whole
      split
      · next source =>
        refine ⟨begun, ?_, by simp, by simp [source, empty], by simp [unshut], by simp⟩
        simp [HopPhase.held, empty, whole]
      · refine ⟨begun, ?_, by simp [unbroken], by simp [hphase], by simp [unshut], by simp [hphase]⟩
        simp [hphase, HopPhase.held, empty, whole]
    · refine ⟨begun, ?_, by simp [unbroken], by simp, by simp [unshut], by simp⟩
      simp [HopPhase.held, whole]
  · next rest hphase =>
    rw [hphase] at whole looping
    have unbroken := looping (by simp) (by simp)
    have unshut : hop.shut = false := by
      rw [hphase] at shut
      simpa using shut
    have whole := whole unbroken
    simp only [HopPhase.held] at whole
    have parts : rest.take (n + 1) ++ rest.drop (n + 1) = rest := List.take_append_drop _ _
    refine ⟨?_, ?_, ?_, ?_, by simp [unshut], ?_⟩ <;> dsimp only
    · rw [← whole]
      refine ⟨rest.drop (n + 1) ++ hop.unread, ?_⟩
      rw [List.append_assoc, ← List.append_assoc (rest.take _), parts]
    · intro _
      have held : HopPhase.held (if rest.drop (n + 1) = [] then HopPhase.reading
          else .writing (rest.drop (n + 1))) = rest.drop (n + 1) := by
        split
        · next h =>
          rw [h]
          rfl
        · rfl
      rw [held, List.append_assoc, ← List.append_assoc (rest.take _), parts, whole]
    · simp [unbroken]
    · split <;> simp
    · split <;> simp
  · next hphase =>
    rw [hphase] at whole ended
    exact ⟨begun, whole, by simp, by simpa using ended, by simp, by simp⟩
  · exact ⟨begun, whole, looping, ended, shut, done⟩

theorem Relays.fail {hop : Hop α} (relays : hop.Relays) : hop.fail.Relays := by
  obtain ⟨begun, whole, looping, ended, shut, done⟩ := relays
  unfold Hop.fail
  split
  · next hphase => exact ⟨begun, by simp, by simp, by simp, by simp_all, by simp⟩
  · next hphase => exact ⟨begun, by simp, by simp, by simp, by simp_all, by simp⟩
  · exact ⟨begun, by simp, by simp, by simp, by simp, by simp⟩
  · exact ⟨begun, whole, looping, ended, shut, done⟩

theorem Relays.shut_whole {hop : Hop α} (relays : hop.Relays) (unbroken : hop.broken = false)
    (shut : hop.shut = true) : hop.closed = true ∧ hop.delivered = hop.sent := by
  have hphase := relays.shut shut
  obtain ⟨closed, empty⟩ := relays.ended (.inr hphase) unbroken
  refine ⟨closed, ?_⟩
  rw [← relays.whole unbroken, hphase, empty]
  simp [HopPhase.held]

/-- What a hop shows its target after each step: what the step wrote and the end, once it is passed
on. -/
theorem turn_delivered (hop : Hop α) (n : Nat) :
    (hop.turn n).1.delivered = hop.delivered ++ (hop.turn n).2 := by
  unfold Hop.turn
  split
  · split
    · split <;> simp
    · simp
  · rfl
  · simp
  · simp

theorem Relays.turn_shut {hop : Hop α} (relays : hop.Relays) {n : Nat} (shut : hop.shut = true) :
    hop.turn n = (hop, []) := by
  unfold Hop.turn
  rw [relays.shut shut]

theorem fail_delivered (hop : Hop α) : hop.fail.delivered = hop.delivered ∧
    hop.fail.shut = hop.shut := by
  unfold Hop.fail
  split <;> exact ⟨rfl, rfl⟩

theorem turn_source (hop : Hop α) (n : Nat) : (hop.turn n).1.sent = hop.sent ∧
    (hop.turn n).1.closed = hop.closed ∧ (hop.turn n).1.broken = hop.broken := by
  unfold Hop.turn
  split
  · split
    · split <;> exact ⟨rfl, rfl, rfl⟩
    · exact ⟨rfl, rfl, rfl⟩
  all_goals exact ⟨rfl, rfl, rfl⟩

theorem fail_source (hop : Hop α) : hop.fail.sent = hop.sent ∧ hop.fail.closed = hop.closed := by
  unfold Hop.fail
  split <;> exact ⟨rfl, rfl⟩

end Hop

/-! ## A row of hops -/

/-- The next hop's source is what the hop before it writes. -/
def feed (items : List α) (ends : Bool) : List (Hop α) → List (Hop α)
  | [] => []
  | hop :: rest => hop.receive items ends :: rest

inductive HopMove (α : Type*) where
  /-- The first source writes, and perhaps ends. -/
  | sends (items : List α) (ends : Bool)
  | turn (i n : Nat)
  | fails (i : Nat)
deriving DecidableEq

def turnAt (n : Nat) : Nat → List (Hop α) → List (Hop α)
  | _, [] => []
  | 0, hop :: rest => (hop.turn n).1 :: feed (hop.turn n).2 (hop.turn n).1.shut rest
  | i + 1, hop :: rest => hop :: turnAt n i rest

def failAt : Nat → List (Hop α) → List (Hop α)
  | _, [] => []
  | 0, hop :: rest => hop.fail :: rest
  | i + 1, hop :: rest => hop :: failAt i rest

def hopStep (hops : List (Hop α)) : HopMove α → List (Hop α)
  | .sends items ends => feed items ends hops
  | .turn i n => turnAt n i hops
  | .fails i => failAt i hops

/-- Every hop relays, and each reads what the one before it wrote. -/
def Row : List (Hop α) → Prop
  | [] => True
  | hop :: rest => hop.Relays ∧
      (∀ next ∈ rest.head?, next.sent = hop.delivered ∧ next.closed = hop.shut) ∧ Row rest

def newRow (n : Nat) : List (Hop α) := List.replicate n Hop.new

theorem newRow_row (n : Nat) : Row (newRow n : List (Hop α)) := by
  induction n with
  | zero => trivial
  | succ n ih =>
    refine ⟨Hop.new_relays, ?_, ih⟩
    intro next hmem
    cases n with
    | zero => cases hmem
    | succ n =>
      obtain rfl := Option.mem_some.mp hmem
      exact ⟨rfl, rfl⟩

theorem feed_row {hops : List (Hop α)} (row : Row hops) (items : List α) (ends : Bool) :
    Row (feed items ends hops) := by
  cases hops with
  | nil => trivial
  | cons hop rest =>
    obtain ⟨relays, linked, row⟩ := row
    refine ⟨relays.receive items ends, ?_, row⟩
    have same : (hop.receive items ends).delivered = hop.delivered ∧
        (hop.receive items ends).shut = hop.shut := by
      unfold Hop.receive
      split <;> exact ⟨rfl, rfl⟩
    rw [same.1, same.2]
    exact linked

theorem turnAt_row {hops : List (Hop α)} (row : Row hops) (n i : Nat) :
    Row (turnAt n i hops) := by
  induction i, hops using turnAt.induct with
  | case1 => simpa [turnAt] using row
  | case2 hop rest =>
    obtain ⟨relays, linked, row⟩ := row
    refine ⟨relays.turn n, ?_, feed_row row _ _⟩
    cases rest with
    | nil => simp [feed]
    | cons next rest =>
      obtain ⟨sent, closed⟩ := linked next rfl
      rintro _ ⟨⟩
      rw [Hop.turn_delivered]
      unfold Hop.receive
      split
      · next source =>
        rw [closed] at source
        simp [relays.turn_shut source, sent, closed]
      · exact ⟨congrArg (· ++ _) sent, rfl⟩
  | case3 i hop rest ih =>
    obtain ⟨relays, linked, row⟩ := row
    refine ⟨relays, ?_, ih row⟩
    cases rest with
    | nil => simp [turnAt]
    | cons next rest =>
      have linked := linked next rfl
      cases i with
      | zero =>
        rintro _ ⟨⟩
        obtain ⟨sent, closed, -⟩ := Hop.turn_source next n
        rw [sent, closed]
        exact linked
      | succ i =>
        rintro _ ⟨⟩
        exact linked

theorem failAt_row {hops : List (Hop α)} (row : Row hops) (i : Nat) : Row (failAt i hops) := by
  induction i, hops using failAt.induct with
  | case1 => simpa [failAt] using row
  | case2 hop rest =>
    obtain ⟨relays, linked, row⟩ := row
    refine ⟨relays.fail, ?_, row⟩
    rw [(Hop.fail_delivered hop).1, (Hop.fail_delivered hop).2]
    exact linked
  | case3 i hop rest ih =>
    obtain ⟨relays, linked, row⟩ := row
    refine ⟨relays, ?_, ih row⟩
    cases rest with
    | nil => simp [failAt]
    | cons next rest =>
      have linked := linked next rfl
      cases i with
      | zero =>
        rintro _ ⟨⟩
        rw [(Hop.fail_source next).1, (Hop.fail_source next).2]
        exact linked
      | succ i =>
        rintro _ ⟨⟩
        exact linked

theorem hopStep_row {hops : List (Hop α)} (row : Row hops) (move : HopMove α) :
    Row (hopStep hops move) := by
  cases move with
  | sends items ends => exact feed_row row items ends
  | turn i n => exact turnAt_row row n i
  | fails i => exact failAt_row row i

theorem row_of_run (n : Nat) (moves : List (HopMove α)) :
    Row (runAll hopStep (newRow n) moves) :=
  @runAll_invariant _ _ hopStep (fun _ _ => True) Row (fun _ move row _ => hopStep_row row move) _ _
    (newRow_row n) (Along.of_forall (fun _ _ => trivial) _ moves)

/-- What comes out at the end is a beginning of what went in. -/
theorem Row.begun {first : Hop α} {rest : List (Hop α)} (row : Row (first :: rest)) :
    ((first :: rest).getLast (by simp)).delivered <+: first.sent := by
  induction rest generalizing first with
  | nil => exact row.1.begun
  | cons next rest ih =>
    obtain ⟨relays, linked, row⟩ := row
    have sent := (linked next rfl).1
    rw [List.getLast_cons (by simp)]
    exact (ih row).trans (sent ▸ relays.begun)

/-- The end comes out only after everything that went in, if no hop failed. -/
theorem Row.shut {first : Hop α} {rest : List (Hop α)} (row : Row (first :: rest))
    (unbroken : ∀ hop ∈ first :: rest, hop.broken = false)
    (shut : ((first :: rest).getLast (by simp)).shut = true) :
    first.closed = true ∧ ((first :: rest).getLast (by simp)).delivered = first.sent := by
  induction rest generalizing first with
  | nil => exact row.1.shut_whole (unbroken first (by simp)) shut
  | cons next rest ih =>
    obtain ⟨relays, linked, row⟩ := row
    obtain ⟨sent, closed⟩ := linked next rfl
    rw [List.getLast_cons (by simp)] at shut ⊢
    have later (hop : Hop α) (hmem : hop ∈ next :: rest) := unbroken hop (List.mem_cons_of_mem _ hmem)
    obtain ⟨nextClosed, all⟩ := ih row later shut
    obtain ⟨firstClosed, whole⟩ := relays.shut_whole (unbroken first (by simp)) (closed ▸ nextClosed)
    exact ⟨firstClosed, by rw [all, sent, whole]⟩

/-! ## Turns that are left -/

def HopPhase.cost : HopPhase α → Nat
  | .writing _ => 3
  | .reading => 2
  | .finishing => 1
  | .done => 0

/-- An item costs less and less the further it gets. -/
def Hop.weight (hop : Hop α) (per : Nat) : Nat :=
  (per + 4) * hop.unread.length + (per + 2) * hop.phase.held.length + hop.phase.cost

def turnsLeft : List (Hop α) → Nat
  | [] => 0
  | hop :: rest => hop.weight (4 * rest.length) + turnsLeft rest

/-- A turn that changes its hop pays for what it hands to the next one. -/
theorem Hop.turn_weight (hop : Hop α) (n per : Nat) :
    hop.turn n = (hop, []) ∨
      (hop.turn n).1.weight per + per * (hop.turn n).2.length < hop.weight per := by
  unfold Hop.turn
  split
  · next hphase =>
    split
    · split
      · right
        simp [weight, hphase, HopPhase.held, HopPhase.cost]
      · exact .inl rfl
    · next some =>
      right
      have parts : (hop.unread.take (n + 1)).length + (hop.unread.drop (n + 1)).length =
          hop.unread.length := by
        rw [← List.length_append, List.take_append_drop]
      have read : 0 < (hop.unread.take (n + 1)).length := by
        have := List.length_pos_iff.mpr some
        rw [List.length_take]
        omega
      simp only [weight, hphase, HopPhase.held, HopPhase.cost, List.length_nil, ← parts, Nat.mul_add,
        Nat.add_mul]
      omega
  · next rest hphase =>
    right
    have parts : (rest.take (n + 1)).length + (rest.drop (n + 1)).length = rest.length := by
      rw [← List.length_append, List.take_append_drop]
    by_cases last : rest.drop (n + 1) = []
    · rw [if_pos last]
      rw [last, List.length_nil] at parts
      rw [Nat.add_zero] at parts
      simp only [weight, hphase, HopPhase.held, HopPhase.cost, List.length_nil, ← parts, Nat.add_mul]
      omega
    · rw [if_neg last]
      have wrote : 0 < (rest.take (n + 1)).length := by
        have := List.length_pos_iff.mpr last
        rw [List.length_drop] at this
        rw [List.length_take]
        omega
      simp only [weight, hphase, HopPhase.held, HopPhase.cost, ← parts, Nat.mul_add, Nat.add_mul]
      omega
  · next hphase =>
    right
    simp [weight, hphase, HopPhase.held, HopPhase.cost]
  · exact .inl rfl

theorem feed_left (items : List α) (ends : Bool) (hops : List (Hop α)) :
    turnsLeft (feed items ends hops) ≤ turnsLeft hops + 4 * hops.length * items.length := by
  cases hops with
  | nil => simp [feed, turnsLeft]
  | cons hop rest =>
    have same : (hop.receive items ends).weight (4 * rest.length) ≤
        hop.weight (4 * rest.length) + (4 * rest.length + 4) * items.length := by
      unfold Hop.receive Hop.weight
      split
      · omega
      · simp only [List.length_append, Nat.mul_add, Nat.add_mul]
        omega
    simp only [feed, turnsLeft, List.length_cons, Nat.mul_add, Nat.mul_one]
    omega

theorem feed_length (items : List α) (ends : Bool) (hops : List (Hop α)) :
    (feed items ends hops).length = hops.length := by
  cases hops <;> rfl

theorem turnAt_length (n i : Nat) (hops : List (Hop α)) : (turnAt n i hops).length = hops.length := by
  induction i, hops using turnAt.induct with
  | case1 => simp [turnAt]
  | case2 hop rest => simp [turnAt, feed_length]
  | case3 i hop rest ih => simp [turnAt, ih]

theorem feed_same {hops : List (Hop α)} {ends : Bool} (h : ∀ hop ∈ hops.head?, hop.closed = ends) :
    feed [] ends hops = hops := by
  cases hops with
  | nil => rfl
  | cons hop rest =>
    obtain rfl := h hop rfl
    rw [feed, Hop.receive]
    split <;> simp

theorem turnAt_left {hops : List (Hop α)} (row : Row hops) (n i : Nat) :
    turnAt n i hops = hops ∨ turnsLeft (turnAt n i hops) < turnsLeft hops := by
  induction i, hops using turnAt.induct with
  | case1 => simp [turnAt]
  | case2 hop rest =>
    rcases hop.turn_weight n (4 * rest.length) with same | less
    · left
      rw [turnAt, same, feed_same fun next hmem => (row.2.1 next hmem).2]
    · right
      have := feed_left (hop.turn n).2 (hop.turn n).1.shut rest
      rw [turnAt, turnsLeft, turnsLeft, feed_length]
      omega
  | case3 i hop rest ih =>
    rw [turnAt]
    rcases ih row.2.2 with same | less
    · exact .inl (congrArg _ same)
    · right
      rw [turnsLeft, turnsLeft, turnAt_length]
      omega

theorem failAt_length (i : Nat) (hops : List (Hop α)) : (failAt i hops).length = hops.length := by
  induction i, hops using failAt.induct with
  | case1 => simp [failAt]
  | case2 hop rest => simp [failAt]
  | case3 i hop rest ih => simp [failAt, ih]

theorem hopStep_length (hops : List (Hop α)) (move : HopMove α) :
    (hopStep hops move).length = hops.length := by
  cases move with
  | sends items ends => exact feed_length items ends hops
  | turn i n => exact turnAt_length n i hops
  | fails i => exact failAt_length i hops

/-- The source has ended, and no hop failed. -/
structure Ready (hops : List (Hop α)) : Prop where
  closed : ∀ first ∈ hops.head?, first.closed = true
  unbroken : ∀ hop ∈ hops, hop.broken = false

theorem Ready.turnAt {hops : List (Hop α)} (ready : Ready hops) (n i : Nat) :
    Ready (turnAt n i hops) := by
  refine ⟨?_, ?_⟩
  · cases hops with
    | nil => simp [Lib.turnAt]
    | cons first rest =>
      have closed := ready.closed first rfl
      cases i with
      | zero =>
        rintro _ ⟨⟩
        rw [(Hop.turn_source first n).2.1, closed]
      | succ i =>
        rintro _ ⟨⟩
        exact closed
  · have unbroken := ready.unbroken
    clear ready
    induction i, hops using turnAt.induct with
    | case1 => simp [Lib.turnAt]
    | case2 hop rest =>
      rw [Lib.turnAt, List.forall_mem_cons, (Hop.turn_source hop n).2.2]
      rw [List.forall_mem_cons] at unbroken
      refine ⟨unbroken.1, ?_⟩
      cases rest with
      | nil => simp [feed]
      | cons next rest =>
        rw [feed, List.forall_mem_cons]
        rw [List.forall_mem_cons] at unbroken
        refine ⟨?_, unbroken.2.2⟩
        unfold Hop.receive
        split <;> exact unbroken.2.1
    | case3 i hop rest ih =>
      rw [Lib.turnAt, List.forall_mem_cons]
      rw [List.forall_mem_cons] at unbroken
      exact ⟨unbroken.1, ih unbroken.2⟩

/-- A hop whose source has ended and that cannot take a turn is done. -/
theorem Hop.done_of_stuck {hop : Hop α} (closed : hop.closed = true)
    (stuck : (hop.turn 0).1 = hop) : hop.phase = .done := by
  have hphase := congrArg Hop.phase stuck
  have delivered := congrArg Hop.delivered stuck
  unfold turn at hphase delivered
  cases h : hop.phase with
  | reading =>
    simp only [h, closed, if_true] at hphase
    split at hphase <;> cases hphase
  | writing rest =>
    simp only [h] at hphase delivered
    have none : rest.take (0 + 1) = [] := by simpa using delivered
    have : rest = [] := by
      cases rest with
      | nil => rfl
      | cons item rest => cases none
    subst this
    cases hphase
  | finishing =>
    simp only [h] at hphase
    cases hphase
  | done => rfl

/-- When the source has ended, nothing failed and no hop can take a turn, every hop is done. -/
theorem Row.stuck {first : Hop α} {rest : List (Hop α)} (row : Row (first :: rest))
    (unbroken : ∀ hop ∈ first :: rest, hop.broken = false) (closed : first.closed = true)
    (stuck : ∀ i, turnAt 0 i (first :: rest) = first :: rest) :
    ∀ hop ∈ first :: rest, hop.phase = .done ∧ hop.shut = true := by
  have hphase := Hop.done_of_stuck closed (List.cons.inj (stuck 0)).1
  have shut := row.1.done hphase (unbroken first (by simp))
  rw [List.forall_mem_cons]
  refine ⟨⟨hphase, shut⟩, ?_⟩
  induction rest generalizing first with
  | nil => simp
  | cons next rest ih =>
    obtain ⟨relays, linked, row⟩ := row
    have later (hop : Hop α) (hmem : hop ∈ next :: rest) := unbroken hop (List.mem_cons_of_mem _ hmem)
    have nextClosed : next.closed = true := by rw [(linked next rfl).2, shut]
    have nextStuck (i : Nat) := (List.cons.inj (stuck (i + 1))).2
    have nextDone := Hop.done_of_stuck nextClosed (List.cons.inj (nextStuck 0)).1
    have nextShut := row.1.done nextDone (later next (by simp))
    rw [List.forall_mem_cons]
    exact ⟨⟨nextDone, nextShut⟩, ih row later nextClosed nextStuck nextDone nextShut⟩

end Beez.Lib
