import Mathlib.Data.List.Infix
import Mathlib.Tactic.Common

/-! # Looking up paths in a tree with symbolic links -/

namespace Beez.Lib

/-- One part of a path, between two separators. -/
inductive PathPart (N : Type) where
  /-- A dot, or nothing. -/
  | here
  | up
  | name (name : N)
deriving DecidableEq, Repr

def PathPart.name? {N : Type} : PathPart N → Option N
  | .name given => some given
  | _ => none

inductive LinkNode (N : Type) where
  | directory | file
  | link (absolute : Bool) (target : List (PathPart N))
deriving DecidableEq, Repr

/-- The entries of a file system. The parent of each is a directory. -/
structure LinkTree (N : Type) where
  entry : List N → Option (LinkNode N)
  root : entry [] = some .directory
  closed : ∀ path name, entry (path ++ [name]) ≠ none → entry path = some .directory

namespace LinkTree

variable {N : Type} (tree : LinkTree N)

/-- Walks a path from a directory. `follow` takes over where a link is met. -/
def walkWith (follow : List N → List (PathPart N) → Option (Nat × List N)) (links : Nat) :
    List N → List (PathPart N) → Option (Nat × List N)
  | current, [] => some (links, current)
  | current, part :: rest =>
    match tree.entry current with
    | some .directory =>
      match part with
      | .here => walkWith follow links current rest
      | .up => walkWith follow links current.dropLast rest
      | .name name =>
        match tree.entry (current ++ [name]) with
        | none => none
        | some (.link absolute target) => follow (if absolute then [] else current) (target ++ rest)
        | some _ => walkWith follow links (current ++ [name]) rest
    | _ => none

/-- Walks a path and follows at most `links` links. Answers how many are left, and where it ends. -/
def walk : Nat → List N → List (PathPart N) → Option (Nat × List N)
  | 0 => tree.walkWith (fun _ _ => none) 0
  | links + 1 => tree.walkWith (walk links) (links + 1)

/-- The path without links that an absolute path leads to. -/
def canonicalize (links : Nat) (path : List (PathPart N)) : Option (List N) :=
  (tree.walk links [] path).map Prod.snd

/-- A directory or a file, and no link. -/
def Solid (path : List N) : Prop :=
  tree.entry path = some .directory ∨ tree.entry path = some .file

/-- A walk, step by step. -/
inductive Walk : Nat → List N → List (PathPart N) → Nat → List N → Prop
  | done {links current} : Walk links current [] links current
  | here {links current rest left last} (dir : tree.entry current = some .directory)
      (next : Walk links current rest left last) : Walk links current (.here :: rest) left last
  | up {links current rest left last} (dir : tree.entry current = some .directory)
      (next : Walk links current.dropLast rest left last) : Walk links current (.up :: rest) left last
  | enter {links current name rest left last} (dir : tree.entry current = some .directory)
      (solid : tree.Solid (current ++ [name]))
      (next : Walk links (current ++ [name]) rest left last) :
      Walk links current (.name name :: rest) left last
  | follow {links current name rest left last absolute target}
      (dir : tree.entry current = some .directory)
      (link : tree.entry (current ++ [name]) = some (.link absolute target))
      (next : Walk links (if absolute then [] else current) (target ++ rest) left last) :
      Walk (links + 1) current (.name name :: rest) left last

variable {tree} {links left : Nat} {current last path directory : List N} {name : N}
  {rest front : List (PathPart N)}

/-! ## Single steps -/

section

variable {absolute : Bool} {target : List (PathPart N)}

attribute [local simp] walk walkWith

@[simp] theorem walk_nil : tree.walk links current [] = some (links, current) := by
  cases links <;> rfl

theorem walk_here (dir : tree.entry current = some .directory) :
    tree.walk links current (.here :: rest) = tree.walk links current rest := by
  cases links <;> simp [dir]

theorem walk_up (dir : tree.entry current = some .directory) :
    tree.walk links current (.up :: rest) = tree.walk links current.dropLast rest := by
  cases links <;> simp [dir]

theorem walk_enter (dir : tree.entry current = some .directory)
    (solid : tree.Solid (current ++ [name])) :
    tree.walk links current (.name name :: rest) = tree.walk links (current ++ [name]) rest := by
  rcases solid with solid | solid <;> cases links <;> simp [dir, solid]

theorem walk_follow (dir : tree.entry current = some .directory)
    (link : tree.entry (current ++ [name]) = some (.link absolute target)) :
    tree.walk (links + 1) current (.name name :: rest) =
      tree.walk links (if absolute then [] else current) (target ++ rest) := by
  simp [dir, link]

theorem walk_follow_zero (dir : tree.entry current = some .directory)
    (link : tree.entry (current ++ [name]) = some (.link absolute target)) :
    tree.walk 0 current (.name name :: rest) = none := by
  simp [dir, link]

theorem walk_cons_of_ne {part : PathPart N} (h : tree.entry current ≠ some .directory) :
    tree.walk links current (part :: rest) = none := by
  cases links with
  | zero => simp
  | succ links => simp

theorem walk_missing (missing : tree.entry (current ++ [name]) = none) :
    tree.walk links current (.name name :: rest) = none := by
  by_cases dir : tree.entry current = some .directory
  · cases links <;> simp [dir, missing]
  · exact walk_cons_of_ne dir

end

/-! ## Whole walks -/

theorem walk_iff : tree.walk links current rest = some (left, last) ↔
    tree.Walk links current rest left last := by
  constructor
  · intro h
    induction links using Nat.strong_induction_on generalizing current rest with
    | _ links ih =>
    induction rest generalizing current with
    | nil =>
      rw [walk_nil] at h
      cases h
      exact .done
    | cons part rest step =>
      by_cases dir : tree.entry current = some .directory
      · cases part with
        | here => exact .here dir (step (walk_here dir ▸ h))
        | up => exact .up dir (step (walk_up dir ▸ h))
        | name name =>
          cases hentry : tree.entry (current ++ [name]) with
          | none =>
            rw [walk_missing hentry] at h
            cases h
          | some node =>
            cases node with
            | directory => exact .enter dir (.inl hentry) (step (walk_enter dir (.inl hentry) ▸ h))
            | file => exact .enter dir (.inr hentry) (step (walk_enter dir (.inr hentry) ▸ h))
            | link absolute target =>
              cases links with
              | zero =>
                rw [walk_follow_zero dir hentry] at h
                cases h
              | succ links =>
                exact .follow dir hentry (ih links (Nat.lt_succ_self _) (walk_follow dir hentry ▸ h))
      · rw [walk_cons_of_ne dir] at h
        cases h
  · intro h
    induction h with
    | done => exact walk_nil
    | here dir next ih => rw [walk_here dir, ih]
    | up dir next ih => rw [walk_up dir, ih]
    | enter dir solid next ih => rw [walk_enter dir solid, ih]
    | follow dir link next ih => rw [walk_follow dir link, ih]

theorem Walk.append (h : tree.Walk links current front left last) (rest : List (PathPart N)) :
    tree.walk links current (front ++ rest) = tree.walk left last rest := by
  induction h with
  | done => rfl
  | here dir next ih => rw [List.cons_append, walk_here dir, ih]
  | up dir next ih => rw [List.cons_append, walk_up dir, ih]
  | enter dir solid next ih => rw [List.cons_append, walk_enter dir solid, ih]
  | follow dir link next ih => rw [List.cons_append, walk_follow dir link, ← List.append_assoc, ih]

/-- A walk passes every part of its path. -/
theorem Walk.before {whole : List (PathPart N)} (h : tree.Walk links current whole left last)
    (cut : whole = front ++ rest) : ∃ left' middle, tree.Walk links current front left' middle := by
  induction h generalizing front rest with
  | done =>
    obtain ⟨rfl, -⟩ := List.nil_eq_append_iff.mp cut
    exact ⟨_, _, .done⟩
  | here dir next ih =>
    cases front with
    | nil => exact ⟨_, _, .done⟩
    | cons part front =>
      obtain ⟨rfl, tail⟩ := List.cons.inj cut
      obtain ⟨left', middle, walked⟩ := ih tail
      exact ⟨left', middle, .here dir walked⟩
  | up dir next ih =>
    cases front with
    | nil => exact ⟨_, _, .done⟩
    | cons part front =>
      obtain ⟨rfl, tail⟩ := List.cons.inj cut
      obtain ⟨left', middle, walked⟩ := ih tail
      exact ⟨left', middle, .up dir walked⟩
  | enter dir solid next ih =>
    cases front with
    | nil => exact ⟨_, _, .done⟩
    | cons part front =>
      obtain ⟨rfl, tail⟩ := List.cons.inj cut
      obtain ⟨left', middle, walked⟩ := ih tail
      exact ⟨left', middle, .enter dir solid walked⟩
  | @follow _ _ _ _ _ _ _ target dir link next ih =>
    cases front with
    | nil => exact ⟨_, _, .done⟩
    | cons part front =>
      obtain ⟨rfl, tail⟩ := List.cons.inj cut
      obtain ⟨left', middle, walked⟩ := ih
        ((congrArg (target ++ ·) tail).trans (List.append_assoc target front rest).symm)
      exact ⟨left', middle, .follow dir link walked⟩

/-- Nothing stands below a path that is no directory. -/
theorem entry_above (h : tree.entry path ≠ none) (below : directory <+: path)
    (other : directory ≠ path) : tree.entry directory = some .directory := by
  obtain ⟨rest, rfl⟩ := below
  induction rest using List.reverseRecOn with
  | nil => exact absurd (List.append_nil _).symm other
  | append_singleton rest name ih =>
    rw [← List.append_assoc] at h
    have parent := tree.closed _ _ h
    by_cases hnil : rest = []
    · rwa [hnil, List.append_nil] at parent
    · exact ih (by rw [parent]; exact Option.some_ne_none _) (by simpa using hnil)

theorem Solid.ne_none (h : tree.Solid path) : tree.entry path ≠ none := by
  rcases h with h | h <;> simp [h]

theorem Solid.above (h : tree.Solid path) (below : directory <+: path) : tree.Solid directory := by
  by_cases same : directory = path
  · rwa [same]
  · exact .inl (entry_above h.ne_none below same)

theorem Solid.ne_link (h : tree.Solid path) {absolute : Bool} {target : List (PathPart N)} :
    tree.entry path ≠ some (.link absolute target) := by
  rcases h with h | h <;> simp [h]

theorem Walk.solid (h : tree.Walk links current rest left last) (start : tree.Solid current) :
    tree.Solid last := by
  induction h with
  | done => exact start
  | here dir next ih => exact ih start
  | up dir next ih => exact ih (.above (.inl dir) (List.dropLast_prefix _))
  | enter dir solid next ih => exact ih solid
  | @follow _ _ _ _ _ _ absolute _ dir link next ih =>
    refine ih ?_
    split
    · exact .inl tree.root
    · exact .inl dir

/-! ## More directories -/

/-- `grown` has every entry of `tree`, and more plain directories. -/
structure Grown (tree grown : LinkTree N) : Prop where
  kept : ∀ path node, tree.entry path = some node → grown.entry path = some node
  made : ∀ path, tree.entry path = none →
    grown.entry path = none ∨ grown.entry path = some .directory

variable {more : LinkTree N}

theorem Grown.refl (tree : LinkTree N) : tree.Grown tree := ⟨fun _ _ h => h, fun _ h => .inl h⟩

theorem Grown.solid (grown : tree.Grown more) (h : tree.Solid path) : more.Solid path :=
  h.imp (grown.kept _ _) (grown.kept _ _)

theorem Walk.grown (h : tree.Walk links current rest left last) (grown : tree.Grown more) :
    more.Walk links current rest left last := by
  induction h with
  | done => exact .done
  | here dir next ih => exact .here (grown.kept _ _ dir) ih
  | up dir next ih => exact .up (grown.kept _ _ dir) ih
  | enter dir solid next ih => exact .enter (grown.kept _ _ dir) (grown.solid solid) ih
  | follow dir link next ih => exact .follow (grown.kept _ _ dir) (grown.kept _ _ link) ih

theorem canonicalize_eq_some {path : List (PathPart N)} :
    tree.canonicalize links path = some last ↔ ∃ left, tree.Walk links [] path left last := by
  unfold canonicalize
  simp only [Option.map_eq_some_iff, Prod.exists, exists_eq_right, walk_iff]

/-- Dots do not move a walk. -/
theorem Walk.heres {gap : List (PathPart N)} (h : tree.Walk links current gap left last)
    (heres : ∀ part ∈ gap, part = .here) : last = current := by
  induction h with
  | done => rfl
  | here dir next ih => exact ih fun part mem => heres part (List.mem_cons_of_mem _ mem)
  | up dir next ih => cases heres .up List.mem_cons_self
  | enter dir solid next ih => cases heres _ List.mem_cons_self
  | follow dir link next ih => cases heres _ List.mem_cons_self

theorem walk_heres {gap : List (PathPart N)} (dir : tree.entry current = some .directory)
    (heres : ∀ part ∈ gap, part = .here) :
    tree.walk links current (gap ++ rest) = tree.walk links current rest := by
  induction gap with
  | nil => rfl
  | cons part gap ih =>
    rw [List.forall_mem_cons] at heres
    rw [heres.1, List.cons_append, walk_here dir, ih heres.2]

/-- Where every name of the rest leads to a directory, the walk ends at the last of them. -/
theorem walk_directories (down : .up ∉ rest)
    (dirs : ∀ below, below <+: current ++ rest.filterMap PathPart.name? →
      tree.entry below = some .directory) :
    tree.walk links current rest = some (links, current ++ rest.filterMap PathPart.name?) := by
  induction rest generalizing current with
  | nil => simp
  | cons part rest ih =>
    have dir := dirs current (List.prefix_append _ _)
    rw [List.mem_cons, not_or] at down
    cases part with
    | here => exact (walk_here dir).trans (ih down.2 dirs)
    | up => exact absurd rfl down.1
    | name name =>
      have names : current ++ (PathPart.name name :: rest).filterMap PathPart.name? =
          (current ++ [name]) ++ rest.filterMap PathPart.name? := by simp [PathPart.name?]
      rw [names] at dirs ⊢
      rw [walk_enter dir (.inl (dirs _ (List.prefix_append _ _)))]
      exact ih down.2 dirs

/-- A tree grows by directories only, so every link was there before. -/
theorem Grown.link (grown : tree.Grown more) {absolute : Bool} {target : List (PathPart N)}
    (h : more.entry path = some (.link absolute target)) :
    tree.entry path = some (.link absolute target) := by
  cases hentry : tree.entry path with
  | none =>
    rcases grown.made path hentry with none | dir
    · rw [none] at h
      cases h
    · rw [dir] at h
      cases h
  | some node => rw [← h, grown.kept path node hentry]

theorem Grown.dir (grown : tree.Grown more) (h : tree.Solid path)
    (dir : more.entry path = some .directory) : tree.entry path = some .directory := by
  rcases h with h | h
  · exact h
  · rw [grown.kept path _ h] at dir
    cases dir

/-- However a tree grows, a path that it then has leads to the same place. -/
theorem Walk.grown_unique {other : LinkTree N} {left' : Nat} {last' : List N}
    (grown : tree.Grown more) (grown' : tree.Grown other)
    (h : more.Walk links current rest left last) (h' : other.Walk links current rest left' last') :
    last = last' := by
  induction h generalizing left' last' with
  | done =>
    cases h'
    rfl
  | here dir next ih =>
    cases h' with
    | here dir' next' => exact ih next'
  | up dir next ih =>
    cases h' with
    | up dir' next' => exact ih next'
  | enter dir solid next ih =>
    cases h' with
    | enter dir' solid' next' => exact ih next'
    | follow dir' link next' => exact absurd (grown.kept _ _ (grown'.link link)) solid.ne_link
  | follow dir link next ih =>
    cases h' with
    | enter dir' solid next' => exact absurd (grown'.kept _ _ (grown.link link)) solid.ne_link
    | follow dir' link' next' =>
      have same := (grown.link link).symm.trans (grown'.link link')
      simp only [Option.some.injEq, LinkNode.link.injEq] at same
      obtain ⟨rfl, rfl⟩ := same
      exact ih next'

/-- The tree with every directory of a path. -/
def grow [DecidableEq N] (tree : LinkTree N) (path : List N) : LinkTree N where
  entry other := if other <+: path then some .directory else tree.entry other
  root := if_pos List.nil_prefix
  closed := by
    intro other name h
    split
    · rfl
    · next away =>
      have far : ¬other ++ [name] <+: path := fun below => away ((List.prefix_append _ _).trans below)
      rw [if_neg far] at h
      exact tree.closed other name h

theorem grown_grow [DecidableEq N]
    (free : ∀ above, above <+: path → tree.entry above = none ∨ tree.entry above = some .directory) :
    tree.Grown (tree.grow path) := by
  constructor
  · intro other node h
    by_cases below : other <+: path
    · rcases free other below with none | dir
      · rw [none] at h
        cases h
      · rw [← h, dir]
        exact if_pos below
    · exact (if_neg below).trans h
  · intro other h
    by_cases below : other <+: path
    · exact .inr (if_pos below)
    · exact .inl ((if_neg below).trans h)

end LinkTree

end Beez.Lib
