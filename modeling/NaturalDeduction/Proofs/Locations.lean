import NaturalDeduction.Proofs.Forgery
import NaturalDeduction.Proofs.Phases

/-!
# The places of rejections

A rejection names a place by the indices of premises on the way to it, and a rule. Here the way is
followed in the graph, whatever stands there.

* `Element`, `Graph.premiseElements`   what stands among the premises of a node: values, or numbers;
* `Graph.elementAt?`      the element at a location;
* `Graph.Located`         what a rejection says about the element at its location;
* `exists_of_deepest`     the way that `deepest` finds can be followed, and is as long as it should be;
* `located_of_survey`, `located_of_checkAt`   the rejections of a survey and of the rules;
* `reject_located`        all rejections of a check.
-/

namespace NaturalDeduction

/-- What stands among the premises of a node: a value of the graph, or a number of a byte string. -/
inductive Element where
  | value (r : Ref)
  | byte (b : UInt8)
  deriving DecidableEq, Repr

namespace Graph
variable {g : Graph}

/-! ## following a location -/

/-- The elements of the premises of the derivation at `r`. -/
def premiseElements (g : Graph) (r : Ref) : List Element :=
  match g.get r with
  | .derivation _ _ p =>
    match g.get p with
    | .bytes bs => bs.map .byte
    | c => c.items.map .value
  | _ => []

/-- The element at a location, seen from an element: each index is that of a premise. -/
def elementAt? (g : Graph) : Element → Location → Option Element
  | e, [] => some e
  | .value r, i :: l =>
    if 0 ≤ i then (g.premiseElements r)[i.toNat]?.bind fun e => g.elementAt? e l else none
  | .byte _, _ :: _ => none

theorem elementAt?_append (e : Element) (l l' : Location) :
    g.elementAt? e (l ++ l') = (g.elementAt? e l).bind fun e => g.elementAt? e l' := by
  induction l generalizing e with
  | nil =>
    show g.elementAt? e l' = (g.elementAt? e []).bind _
    rw [elementAt?]
    rfl
  | cons i l ih =>
    cases e with
    | byte b => rfl
    | value r =>
      rw [List.cons_append, elementAt?, elementAt?]
      split
      case isTrue =>
        cases (g.premiseElements r)[i.toNat]? with
        | none => rfl
        | some e => exact ih e
      case isFalse => rfl

theorem elementAt?_singleton {r : Ref} {i : Nat} :
    g.elementAt? (.value r) [(i : Int)] = (g.premiseElements r)[i]? := by
  show (if (0 : Int) ≤ i then
    (g.premiseElements r)[(i : Int).toNat]?.bind fun e => g.elementAt? e [] else none) = _
  rw [if_pos (by omega), Int.toNat_natCast]
  cases (g.premiseElements r)[i]? with
  | none => rfl
  | some e => rw [Option.bind_some, elementAt?]

theorem premiseElements_of_premisesOf {r q : Ref} {i : Nat} (h : (g.premisesOf r)[i]? = some q) :
    (g.premiseElements r)[i]? = some (.value q) := by
  unfold premisesOf at h
  unfold premiseElements
  cases hr : g.get r with
  | derivation R c p =>
    rw [hr] at h
    simp only at h ⊢
    cases hp : g.get p with
    | tuple xs | list xs =>
      rw [hp] at h
      show (xs.map Element.value)[i]? = _
      rw [List.getElem?_map, show xs[i]? = some q from h]
      rfl
    | _ =>
      rw [hp] at h
      cases h
  | _ =>
    rw [hr] at h
    cases h

/-- A position of the unfolded derivation is a location. -/
theorem elementAt?_of_nodeAt? {tree x : Ref} {p : List Nat} (h : g.nodeAt? tree p = some x) :
    g.elementAt? (.value tree) (p.map Int.ofNat) = some (.value x) := by
  induction p generalizing tree with
  | nil =>
    obtain rfl := Option.some.inj h
    rfl
  | cons i p ih =>
    obtain ⟨q, hq, hx⟩ := Option.bind_eq_some_iff.mp h
    show g.elementAt? (.value tree) ([(i : Int)] ++ p.map Int.ofNat) = _
    rw [elementAt?_append, elementAt?_singleton, premiseElements_of_premisesOf hq]
    exact ih hx

/-- The way that `deepest` finds leads to a node, so many levels further down. -/
theorem exists_of_deepest {hs : Heights} {n : Nat} {x : Ref} {below : Location}
    (h : g.deepest hs n x = .ok below) :
    ∃ p y, below = p.map Int.ofNat ∧ p.length = n ∧ g.nodeAt? x p = some y := by
  induction n generalizing x below with
  | zero =>
    obtain rfl := Except.ok.inj h
    exact ⟨[], x, rfl, rfl, rfl⟩
  | succ n ih =>
    rw [deepest] at h
    split at h
    case h_1 => cases h
    case h_2 q i hfind =>
      obtain ⟨l, hl, rfl⟩ := map_eq_ok.mp h
      obtain ⟨p, y, rfl, hn, hy⟩ := ih hl
      have hq : (g.premisesOf x)[i]? = some q :=
        List.mk_mem_zipIdx_iff_getElem?.mp (List.mem_of_find?_eq_some hfind)
      refine ⟨i :: p, y, rfl, by rw [List.length_cons, hn], ?_⟩
      rw [nodeAt?_cons hq]
      exact hy

/-! ## rejections -/

/-- What a rejection says about its place. -/
structure Located (g : Graph) (limits : Limits) (tree : Ref) (target : Judgement) (r : Reject) :
    Prop where
  /-- the location leads to an element -/
  place : ∃ e, g.elementAt? (.value tree) r.location = some e
  /-- a rule that is named is the rule of the node there -/
  rule : ∀ R, r.rule = some R →
    ∃ x, g.elementAt? (.value tree) r.location = some (.value x) ∧ g.ruleOf? x = some R
  /-- a derivation that is too deep is so at the first level beyond the limit -/
  deep : r.reason = .malformedProofStructure →
    r.message = "derivation is deeper than " ++ limits.written →
      r.location.length = limits.maxDepth
  /-- a derivation that contains itself does so on the way to the location -/
  loop : r.reason = .malformedProofStructure → r.message = "derivation contains itself" →
    ∃ l, l <+: r.location ∧ l ≠ r.location ∧
      g.elementAt? (.value tree) l = g.elementAt? (.value tree) r.location
  /-- only where there is no rule to speak of, none is named -/
  unnamed : r.rule = none → r.reason = .malformedProofStructure ∨
    r.reason = .malformedInput ∧ r.location = [] ∧ ¬ g.WellStated target

/-- Where a survey is when it meets the node at `x`. -/
structure OnWay (g : Graph) (limits : Limits) (tree : Ref) (levels : Nat) (path : List Nat)
    (above : RefSet) (x : Ref) : Prop where
  levels : path.length + levels = limits.maxDepth
  node : g.nodeAt? tree path.reverse = some x
  above : ∀ a, above.contains a = true →
    ∃ p, p <+: path.reverse ∧ p ≠ path.reverse ∧ g.nodeAt? tree p = some a

section
variable {limits : Limits} {tree : Ref} {target : Judgement} {r : Reject}

theorem onWay_root : g.OnWay limits tree limits.maxDepth [] {} tree :=
  ⟨by simp, rfl, fun _ ha => absurd ha RefSet.contains_empty⟩

theorem OnWay.premise {n : Nat} {path : List Nat} {above : RefSet} {x : Ref}
    (h : g.OnWay limits tree (n + 1) path above x) {q : Ref × Nat}
    (hq : q ∈ (g.premisesOf x).zipIdx) :
    g.OnWay limits tree n (q.2 :: path) (above.insert x) q.1 := by
  have hlevels := h.levels
  have hrev : (q.2 :: path).reverse = path.reverse ++ [q.2] := List.reverse_cons
  refine ⟨by rw [List.length_cons]; omega, ?_, fun a ha => ?_⟩
  · rw [hrev, nodeAt?_append, h.node]
    exact List.mk_mem_zipIdx_iff_getElem?.mp hq
  · rw [hrev]
    have hne : ∀ p : List Nat, p <+: path.reverse → p ≠ path.reverse ++ [q.2] := by
      intro p hp heq
      have hlen := hp.length_le
      rw [heq, List.length_append, List.length_singleton] at hlen
      omega
    rcases RefSet.contains_insert_iff.mp ha with rfl | ha
    · exact ⟨path.reverse, List.prefix_append _ _, hne _ (List.prefix_refl _), h.node⟩
    · obtain ⟨p, hp, -, hnode⟩ := h.above a ha
      exact ⟨p, hp.trans (List.prefix_append _ _), hne p hp, hnode⟩

/-- A rejection for the shape of a node names no rule. -/
theorem located_misshapen {l : Location} {m : String}
    (place : ∃ e, g.elementAt? (.value tree) l = some e)
    (deep : m = "derivation is deeper than " ++ limits.written → l.length = limits.maxDepth)
    (loop : m = "derivation contains itself" → ∃ l', l' <+: l ∧ l' ≠ l ∧
      g.elementAt? (.value tree) l' = g.elementAt? (.value tree) l) :
    g.Located limits tree target ⟨.malformedProofStructure, l, none, m⟩ where
  place := place
  rule := nofun
  deep := fun _ => deep
  loop := fun _ => loop
  unnamed := fun _ => .inl rfl

/-- A rejection by a rule is about the node at its location. -/
theorem located_named {l : Location} {x : Ref} {R : Rule} {c : Reason} {m : String}
    (hc : c ≠ .malformedProofStructure) (hx : g.elementAt? (.value tree) l = some (.value x))
    (hR : g.ruleOf? x = some R) : g.Located limits tree target ⟨c, l, some R, m⟩ where
  place := ⟨_, hx⟩
  rule := by
    intro S hS
    obtain rfl := Option.some.inj hS
    exact ⟨x, hx, hR⟩
  deep := fun h => absurd h hc
  loop := fun h => absurd h hc
  unnamed := nofun

/-- The two messages that say more about their place are the only ones with this letter. -/
theorem located_of_head_ne {l : Location} {m : String} {e : Element}
    (he : g.elementAt? (.value tree) l = some e) (hm : m.toList.head? ≠ some 'd') :
    g.Located limits tree target ⟨.malformedProofStructure, l, none, m⟩ := by
  refine located_misshapen ⟨e, he⟩ (fun h => ?_) fun h => ?_
  · refine absurd ?_ hm
    rw [h, String.toList_append]
    rfl
  · refine absurd ?_ hm
    rw [h]
    rfl

theorem deep_ne_loop (w : String) : "derivation is deeper than " ++ w ≠ "derivation contains itself" := by
  intro h
  have := congrArg String.toList h
  simp at this

/-- What a survey has against a node itself. -/
theorem Refusal.located {levels : Nat} {path : List Nat} {above : RefSet} {x : Ref}
    (h : g.Refusal limits.written levels path above x r)
    (w : g.OnWay limits tree levels path above x) : g.Located limits tree target r := by
  have hx : g.elementAt? (.value tree) (.ofPath path) = some (.value x) :=
    elementAt?_of_nodeAt? w.node
  cases h with
  | kind =>
    apply located_of_head_ne hx
    simp
  | rule =>
    apply located_of_head_ne hx
    simp
  | premises => exact located_of_head_ne hx (by decide)
  | loop ha =>
    refine located_misshapen ⟨_, hx⟩ (fun h => absurd h.symm (deep_ne_loop _)) fun _ => ?_
    obtain ⟨p, hp, hne, hnode⟩ := w.above x ha
    refine ⟨p.map Int.ofNat, hp.map Int.ofNat, fun h => hne ?_, ?_⟩
    · exact List.map_injective_iff.mpr (fun _ _ => Int.ofNat.inj) h
    · rw [elementAt?_of_nodeAt? hnode, hx]
  | deep hb =>
    obtain ⟨p, y, rfl, hp, hy⟩ := exists_of_deepest hb
    refine located_misshapen ⟨.value y, ?_⟩ (fun _ => ?_) fun h => absurd h (deep_ne_loop _)
    · rw [elementAt?_append, hx]
      exact elementAt?_of_nodeAt? hy
    · have hlevels := w.levels
      simp only [Location.ofPath, List.length_append, List.length_map, List.length_reverse]
      omega
  | @bytes R c p hd hp =>
    have hfirst : ∃ b, g.elementAt? (.value x) [((0 : Nat) : Int)] = some (.byte b) := by
      rw [elementAt?_singleton, premiseElements, hd]
      cases hc : g.get p with
      | bytes bs =>
        cases bs with
        | nil =>
          rw [hc] at hp
          cases hp
        | cons b bs => exact ⟨b, by simp [hc]⟩
      | _ =>
        rw [hc] at hp
        cases hp
    obtain ⟨b, hb⟩ := hfirst
    refine located_of_head_ne (e := .byte b) ?_ ?_
    · rw [elementAt?_append, hx]
      exact hb
    · simp
  | conclusion hR => exact located_named (by simp) hx hR

/-- What a survey rejects. -/
theorem located_of_survey {levels : Nat} {path : List Nat} {above : RefSet} {x : Ref} {s : Survey}
    (h : g.survey limits.written levels path above x s = .error (.reject r))
    (w : g.OnWay limits tree levels path above x) : g.Located limits tree target r := by
  -- each level down is on the way to a premise
  induction levels generalizing path above x s with
  | zero =>
    obtain h | ⟨n, hn, -⟩ := survey_eq_reject h
    · exact h.located w
    · cases hn
  | succ k ih =>
    obtain h | ⟨n, hn, q, hq, t, h⟩ := survey_eq_reject h
    · exact h.located w
    · obtain rfl : k = n := Nat.succ.inj hn
      exact ih h (w.premise hq)

/-- A fault in a premise is in one that there is. -/
theorem exists_of_reject_premise {i : Nat} {e : Expectation} {R : Rule} {ps : List Ref} {l : Location}
    (h : (RuleFault.premise i e).reject g R ps l = .ok r) : ∃ q, ps[i]? = some q := by
  rw [RuleFault.reject] at h
  obtain ⟨m, -, h⟩ := bind_eq_ok.mp h
  cases hq : ps[i]? with
  | none =>
    simp only [hq] at h
    cases h
  | some q => exact ⟨q, rfl⟩

/-- What the rule of a node rejects: the node, or one of its premises. -/
theorem located_of_checkAt {p : List Nat} {x : Ref} {goal : Judgement}
    (hx : g.nodeAt? tree p = some x) (hps : ∀ q ∈ g.premisesOf x, ∃ S, g.ruleOf? q = some S)
    (h : g.checkAt p.reverse x goal = .error (.reject r)) : g.Located limits tree target r := by
  obtain ⟨R, f, hR, -, hr⟩ := fault_of_checkAt h
  have hl : g.elementAt? (.value tree) (.ofPath p.reverse) = some (.value x) := by
    rw [Location.ofPath, List.reverse_reverse]
    exact elementAt?_of_nodeAt? hx
  by_cases hf : ∃ i e, f = .premise i e
  · obtain ⟨i, e, rfl⟩ := hf
    obtain ⟨q, hq⟩ := exists_of_reject_premise hr
    obtain ⟨m, rfl⟩ := reject_premise hq hr
    obtain ⟨S, hS⟩ := hps q (List.mem_of_getElem? hq)
    rw [hS]
    refine located_named (x := q) (by simp) ?_ hS
    rw [elementAt?_append, hl, Option.bind_some, elementAt?_singleton]
    exact premiseElements_of_premisesOf hq
  · obtain ⟨m, rfl⟩ := reject_node (fun i e hi => hf ⟨i, e, hi⟩) hr
    exact located_named (fun h => f.not_isFormal (.inr h)) hl hR

/-- **A rejection is about a place that there is.** The location of a rejection can be followed from
the root of the derivation, through the premises of one node after another, and a rule that the
rejection names is the rule of the node it leads to. A derivation that is too deep is rejected at
the first level beyond the limit, one that contains itself at a node that was passed on the way. No
rule is named only where the shape of a node is rejected, or the target. -/
theorem reject_located (h : g.check limits tree target = .ok (.reject r)) :
    g.Located limits tree target r := by
  obtain ht | ⟨memo, hm, hsurvey | ⟨s, hs, hrules | ⟨-, hend⟩⟩⟩ := reject_cases h
  · obtain ⟨m, rfl⟩ := exists_of_checkTarget ht
    have hbad : ¬ g.WellStated target := by
      intro hw
      obtain ⟨memo, hm⟩ := exists_checkTarget hw
      rw [hm] at ht
      cases ht
    exact ⟨⟨_, rfl⟩, nofun, nofun, nofun, fun _ => .inr ⟨rfl, rfl, hbad⟩⟩
  · exact located_of_survey hsurvey onWay_root
  · have hrun := runsTo_of_survey hm hs
    rw [hrules] at hrun
    cases hrun with
    | @fails p x j _ hx hj he _ =>
      rw [List.append_nil] at he
      refine located_of_checkAt hx (fun q hq => ?_) he
      obtain ⟨S, -, hS, -⟩ := apt_of_survey hm hs ((below_of_nodeAt? hx).tail hq)
      exact ⟨S, hS⟩
  · obtain ⟨j, m, -, -, rfl⟩ := exists_of_checkConclusion hend
    obtain ⟨R, -, hR, -⟩ := apt_of_survey hm hs .refl
    rw [hR]
    exact located_named (by simp) rfl hR

end

/-- A derivation that stands among its own premises. -/
def loopedNode : Graph where
  cells := #[.text "x", .text "P", .base 1, .env [(0, 2)], .var 0, .sequent 3 4 2, .rule .fstElim,
    .list [8], .derivation 6 5 7]
  below := by decide
  apart := by decide

/-- A shared node is too deep below its second parent, and a node that contains itself is rejected
where it is met again. -/
theorem reject_located_twiceUsed :
    twiceUsed.check ⟨2, by decide, "2"⟩ 14 ⟨3, 4, 2⟩ = .ok (.reject
      ⟨.malformedProofStructure, [1, 0], none, "derivation is deeper than 2"⟩) ∧
    twiceUsed.Located ⟨2, by decide, "2"⟩ 14 ⟨3, 4, 2⟩
      ⟨.malformedProofStructure, [1, 0], none, "derivation is deeper than 2"⟩ ∧
    loopedNode.check .default 8 ⟨3, 4, 2⟩ = .ok (.reject
      ⟨.malformedProofStructure, [0], none, "derivation contains itself"⟩) ∧
    loopedNode.Located .default 8 ⟨3, 4, 2⟩
      ⟨.malformedProofStructure, [0], none, "derivation contains itself"⟩ := by
  have hdeep : twiceUsed.check ⟨2, by decide, "2"⟩ 14 ⟨3, 4, 2⟩ = .ok (.reject
      ⟨.malformedProofStructure, [1, 0], none, "derivation is deeper than 2"⟩) := by decide +kernel
  have hloop : loopedNode.check .default 8 ⟨3, 4, 2⟩ = .ok (.reject
      ⟨.malformedProofStructure, [0], none, "derivation contains itself"⟩) := by decide +kernel
  exact ⟨hdeep, reject_located hdeep, hloop, reject_located hloop⟩

end Graph

end NaturalDeduction
