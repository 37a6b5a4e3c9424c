import NaturalDeduction.Graph.Equality

/-!
# Sameness

Two values are the same when they have one constructor and the same parts; environments and
dictionaries when they have equal keys with the same values, in any order. Plain data, tuples and
lists are the same when they are of one kind and equal. A pair of shared parts is compared once.

* `Graph.partPairs`   the pairs of parts that two values of one kind must agree on;
* `Graph.sameFrom`    comparison, given the pairs that are known to be the same;
* `Graph.same`        sameness of two values.
-/

namespace NaturalDeduction

abbrev PairSet := Std.TreeSet (Ref × Ref) lexOrd.compare

namespace Graph

/-- Pairs the value of each entry with that of an equal key in `ys`, if there is one for each. -/
def pairValues (g : Graph) (ys : List (Ref × Ref)) : List (Ref × Ref) → Option (List (Ref × Ref))
  | [] => some []
  | e :: xs =>
    match g.find? ys e.1 with
    | none => none
    | some v => (g.pairValues ys xs).map ((e.2, v) :: ·)

/-- Pairs the values of equal keys; there is no pairing if the keys differ. -/
def pairEntries (g : Graph) (xs ys : List (Ref × Ref)) : Option (List (Ref × Ref)) :=
  if xs.length == ys.length then g.pairValues ys xs else none

/-- The pairs of parts on which two values of one kind must agree to be the same; none if they
differ anyway. -/
def partPairs (g : Graph) (a b : Ref) : Option (List (Ref × Ref)) :=
  match g.get a, g.get b with
  | .env xs, .env ys => g.pairEntries xs ys
  | .dict xs, .dict ys => g.pairEntries xs ys
  | x, y =>
    if x.fields.isEmpty then if g.equal a b then some [] else none
    else some ((x.fields.map Prod.snd).zip (y.fields.map Prod.snd))

theorem fst_mem_of_mem_pairValues {g : Graph} {xs ys ps : List (Ref × Ref)}
    (h : g.pairValues ys xs = some ps) {p : Ref × Ref} (hp : p ∈ ps) :
    ∃ e ∈ xs, p.1 = e.2 := by
  induction xs generalizing ps with
  | nil => simp_all [pairValues]
  | cons e xs ih =>
    rw [pairValues] at h
    split at h
    · simp at h
    · obtain ⟨qs, hqs, rfl⟩ := Option.map_eq_some_iff.mp h
      rcases List.mem_cons.mp hp with rfl | hq
      · exact ⟨e, by simp, rfl⟩
      · obtain ⟨e', he', hpe⟩ := ih hqs hq
        exact ⟨e', by simp [he'], hpe⟩

theorem fst_mem_of_mem_pairEntries {g : Graph} {xs ys ps : List (Ref × Ref)}
    (h : g.pairEntries xs ys = some ps) {p : Ref × Ref} (hp : p ∈ ps) :
    ∃ e ∈ xs, p.1 = e.2 := by
  unfold pairEntries at h
  split at h
  · exact fst_mem_of_mem_pairValues h hp
  · simp at h

theorem lt_of_mem_partPairs {g : Graph} {a b : Ref} {ps : List (Ref × Ref)}
    (h : g.partPairs a b = some ps) {p : Ref × Ref} (hp : p ∈ ps) : p.1 < a := by
  unfold partPairs at h
  split at h
  case h_1 xs ys ha _ =>
    obtain ⟨e, he, hpe⟩ := fst_mem_of_mem_pairEntries h hp
    refine @lt_of_mem_refs g a p.1 (by simp [ha, Cell.kind]) ?_
    simp only [Cell.refs, ha, Cell.entries, List.mem_append, List.mem_flatMap]
    exact .inr ⟨e, he, by simp [hpe]⟩
  case h_2 xs ys ha _ =>
    obtain ⟨e, he, hpe⟩ := fst_mem_of_mem_pairEntries h hp
    refine @lt_of_mem_refs g a p.1 (by simp [ha, Cell.kind]) ?_
    simp only [Cell.refs, ha, Cell.entries, List.mem_append, List.mem_flatMap]
    exact .inr ⟨e, he, by simp [hpe]⟩
  case h_3 =>
    split at h
    · split at h
      · obtain rfl : [] = ps := by simpa using h
        simp at hp
      · simp at h
    · obtain rfl := Option.some.inj h
      have hm := (List.of_mem_zip hp).1
      obtain ⟨f, hf, hfp⟩ := List.mem_map.mp hm
      exact hfp ▸ g.forall_fields_lt a f hf

/-- Folds over the members of a list as long as there is a result. -/
def foldWhile {α σ : Type} :
    (l : List α) → ((a : α) → a ∈ l → σ → Option σ) → σ → Option σ
  | [], _, s => some s
  | a :: l, f, s =>
    match f a List.mem_cons_self s with
    | none => none
    | some s => foldWhile l (fun b h => f b (List.mem_cons_of_mem a h)) s

/-- Compares two values, given pairs that are known to be the same: those pairs and the ones found
to be the same on the way, or nothing if the values differ. -/
def sameFrom (g : Graph) (a b : Ref) (known : PairSet) : Option PairSet :=
  if a == b then some known
  else if (g.get a).kind != (g.get b).kind then none
  else if known.contains (a, b) then some known
  else
    match h : g.partPairs a b with
    | none => none
    | some ps =>
      (foldWhile ps (fun p hp known =>
        have : p.1 < a := lt_of_mem_partPairs h hp
        g.sameFrom p.1 p.2 known) known).map (·.insert (a, b))
termination_by a

/-- Whether two values are the same. -/
def same (g : Graph) (a b : Ref) : Bool := (g.sameFrom a b {}).isSome

/-- Whether two lists of bindings have equal names with the same types. -/
def sameBindings (g : Graph) (xs ys : List (Ref × Ref)) : Bool :=
  match g.pairEntries xs ys with
  | none => false
  | some ps => ps.all fun p => g.same p.1 p.2

end Graph

end NaturalDeduction
