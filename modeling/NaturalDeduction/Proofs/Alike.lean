import NaturalDeduction.Proofs.Reordering
import NaturalDeduction.Proofs.Runs

/-!
# Derivations that are alike

Derivations with the same rules and the same sequents, up to the order of the bindings. What is printed
of a derivation is read as one that is alike, and a run cannot tell them apart.

* `Derivation.Alike`      the relation;
* `PlainDerivation.alike`   two derivations that one value of a graph stands for are alike;
* `IsDerivation.plain`    what is added to a graph stands for itself there, if its names are plain;
* `IsDerivation.parallel`   the nodes of derivations that are alike record twins;
* `IsDerivation.showTree_eq`   derivations that are alike have the same text;
* `report_of_alike`       and runs over them end in the same way.
-/

namespace NaturalDeduction

open Source

/-- The same rules and the same sequents, up to the order of the bindings. -/
inductive Derivation.Alike : Derivation → Derivation → Prop
  | node {R : Rule} {q q' : Sequent} {ds ds' : List Derivation} (hq : q.assertion = q'.assertion)
      (hds : List.Forall₂ Alike ds ds') : Alike (.node R q ds) (.node R q' ds')

theorem Derivation.Alike.conclusion {d d' : Derivation} (h : d.Alike d') :
    d.conclusion.assertion = d'.conclusion.assertion := by
  cases h with
  | node hq _ => exact hq

/-- Two lists with a common third one. -/
theorem forall₂_of_common {α β γ : Type} {R : α → β → Prop} {S : α → γ → Prop} {T : β → γ → Prop}
    {l : List α} {m : List β} {n : List γ} (h : List.Forall₂ R l m) (h' : List.Forall₂ S l n)
    (hT : ∀ b ∈ m, ∀ a c, R a b → S a c → T b c) : List.Forall₂ T m n := by
  induction h generalizing n with
  | nil =>
    cases h'
    exact .nil
  | @cons a b l m hab _ ih =>
    cases h' with
    | cons hac h' =>
      obtain ⟨hb, hm⟩ := List.forall_mem_cons.mp hT
      exact .cons (hb a _ hab hac) (ih h' hm)

/-- Two lists whose members are joined by those of two others. -/
theorem forall₂_through {α β γ δ : Type} {R : α → β → Prop} {S : β → γ → Prop} {T : δ → γ → Prop}
    {U : α → δ → Prop} {l : List α} {m : List β} {n : List γ} {k : List δ} (h : List.Forall₂ R l m)
    (hm : List.Forall₂ S m n) (hn : List.Forall₂ T k n)
    (hU : ∀ a ∈ l, ∀ b ∈ m, ∀ c ∈ n, ∀ d ∈ k, R a b → S b c → T d c → U a d) :
    List.Forall₂ U l k := by
  induction hm generalizing l k with
  | nil =>
    cases h
    cases hn
    exact .nil
  | @cons b c m n hbc _ ih =>
    cases h with
    | @cons a _ l _ hab h =>
    cases hn with
    | @cons d _ k _ hdc hn =>
      have hhead : U a d := hU a List.mem_cons_self b List.mem_cons_self c List.mem_cons_self d
        List.mem_cons_self hab hbc hdc
      refine .cons hhead (ih h hn fun a' ha' b' hb' c' hc' d' hd' => ?_)
      exact hU a' (List.mem_cons_of_mem a ha') b' (List.mem_cons_of_mem b hb') c'
        (List.mem_cons_of_mem c hc') d' (List.mem_cons_of_mem d hd')

/-- Steps along two lists that do the same, one by one. -/
theorem foldlM_eq_of_forall₂ {ε σ α β : Type} {f : σ → α → Except ε σ} {k : σ → β → Except ε σ}
    {l : List α} {m : List β} (h : List.Forall₂ (fun a b => ∀ s, f s a = k s b) l m) (s : σ) :
    l.foldlM f s = m.foldlM k s := by
  induction h generalizing s with
  | nil => rfl
  | @cons a b l m hab _ ih =>
    rw [List.foldlM_cons, List.foldlM_cons, hab]
    cases k s b with
    | error e => rfl
    | ok t => exact ih t

namespace Graph
variable {g g' : Graph} {r : Ref}

/-! ## what a value stands for -/

/-- A text is read in one way only, so a value stands for one type or term at most. -/
theorem Prints.unique {n : Nonterminal} {read : (ts : List Token) → Read n.Value ts}
    (hread : ∀ {ts v r}, Yields (read ts) v r ↔ Spans n v ts r) {v v' : n.Value}
    (h : g.Prints n v r) (h' : g.Prints n v' r) : v = v' := by
  obtain ⟨s, hs, hw⟩ := h.show
  obtain ⟨s', hs', hw'⟩ := h'.show
  obtain rfl : s = s' := Except.ok.inj (hs.symm.trans hs')
  have hv : parseWith read s = .ok v := (parseWith_eq_ok_iff hread).mpr hw.exists_tree
  have hv' : parseWith read s = .ok v' := (parseWith_eq_ok_iff hread).mpr hw'.exists_tree
  exact Except.ok.inj (hv.symm.trans hv')

theorem PlainTy.unique {A A' : Ty} (h : g.PlainTy r A) (h' : g.PlainTy r A') : A = A' :=
  h.prints.unique yields_readTy_iff h'.prints

theorem PlainTerm.unique {t t' : Term} (h : g.PlainTerm r t) (h' : g.PlainTerm r t') : t = t' :=
  h.prints.unique yields_readTerm_iff h'.prints

theorem PlainBinding.unique {e : Ref × Ref} {b b' : String × Ty} (h : g.PlainBinding e b)
    (h' : g.PlainBinding e b') : b = b' := by
  obtain ⟨hname, -, hty⟩ := h
  obtain ⟨hname', -, hty'⟩ := h'
  exact Prod.ext (Option.some.inj (hname.symm.trans hname')) (hty.unique hty')

theorem PlainContext.perm {Γ Γ' : Context} (h : g.PlainContext r Γ) (h' : g.PlainContext r Γ') :
    Γ.bindings.Perm Γ'.bindings := by
  obtain ⟨bs, es, hget, hperm, hall⟩ := h
  obtain ⟨bs', es', hget', hperm', hall'⟩ := h'
  obtain rfl : bs = bs' := Cell.env.inj (hget.symm.trans hget')
  have hcomp : Relation.Comp List.Perm (List.Forall₂ g.PlainBinding) es Γ'.bindings :=
    ⟨es', hperm.trans hperm'.symm, hall'⟩
  rw [← List.forall₂_comp_perm_eq_perm_comp_forall₂] at hcomp
  obtain ⟨cs, hcs, hcs'⟩ := hcomp
  have heq : List.Forall₂ Eq Γ.bindings cs :=
    forall₂_of_common hall hcs fun b _ e c hb hc => hb.unique hc
  rw [List.forall₂_eq_eq_eq] at heq
  rw [heq]
  exact hcs'

end Graph

/-- A name is bound to the same type in every order of the bindings. -/
theorem Context.lookup_of_perm {Γ Γ' : Context} (h : Γ.bindings.Perm Γ'.bindings) :
    Γ.lookup = Γ'.lookup := by
  have hmem : ∀ (Δ : Context) x A, Δ.lookup x = some A ↔ (x, A) ∈ Δ.bindings := by
    intro Δ x A
    rw [Context.lookup, List.lookup_eq_some_iff]
    constructor
    · rintro ⟨l₁, l₂, hl, -⟩
      rw [hl]
      exact List.mem_append_right l₁ List.mem_cons_self
    · intro hA
      obtain ⟨l₁, l₂, hl⟩ := List.append_of_mem hA
      refine ⟨l₁, l₂, hl, fun p hp => bne_iff_ne.mpr ?_⟩
      have hnodup := Δ.nodup
      rw [hl, List.map_append, List.nodup_append] at hnodup
      exact fun hx => hnodup.2.2 p.1 (List.mem_map_of_mem hp) x (by simp) hx.symm
  funext x
  refine Option.ext fun A => ?_
  rw [hmem, hmem, h.mem_iff]

namespace Graph
variable {g g' : Graph} {r : Ref}

theorem PlainSequent.assertion {q q' : Sequent} (h : g.PlainSequent r q) (h' : g.PlainSequent r q') :
    q.assertion = q'.assertion := by
  obtain ⟨e, t, a, hget, he, ht, ha⟩ := h
  obtain ⟨e', t', a', hget', he', ht', ha'⟩ := h'
  obtain ⟨rfl, rfl, rfl⟩ : e = e' ∧ t = t' ∧ a = a' := by simpa using hget.symm.trans hget'
  rw [Sequent.assertion, Sequent.assertion, Context.lookup_of_perm (he.perm he'), ht.unique ht',
    ha.unique ha']

/-- Two derivations that one value stands for are alike. -/
theorem PlainDerivation.alike {d d' : Derivation} (h : g.PlainDerivation r d)
    (h' : g.PlainDerivation r d') : d.Alike d' := by
  induction d using Derivation.induction generalizing r d' with
  | node R q ds ih =>
    cases h with
    | @node _ tag c p _ _ ps _ hget hR hc hp hps =>
      cases h' with
      | @node _ tag' c' p' R' q' ps' ds' hget' hR' hc' hp' hps' =>
        obtain ⟨rfl, rfl, rfl⟩ : tag = tag' ∧ c = c' ∧ p = p' := by
          simpa using hget.symm.trans hget'
        obtain rfl : R = R' := Cell.rule.inj (hR.symm.trans hR')
        obtain rfl : ps = ps' := Cell.tuple.inj (hp.symm.trans hp')
        refine .node (hc.assertion hc') ?_
        exact forall₂_of_common hps hps' fun d hd _ _ hpd hpd' => ih d hd hpd hpd'

/-! ## what is added stands for itself -/

theorem plainTy_of_value {A : Ty} (hA : ∀ x ∈ A.names, isPlain x = true) {r : Ref}
    (h : g.value r = A.value) : g.PlainTy r A := by
  induction A generalizing r with
  | bottom => exact .bottom (Cell.shape_of_kind (kind_of_value h))
  | base x =>
    obtain ⟨n, hget⟩ := Cell.shape_of_kind (kind_of_value h)
    rw [value_of_get hget] at h
    have hn : g.value n = .name (.text x) := by
      simpa [valueOf, Cell.kind, Cell.fields, Ty.value] using h
    exact .base hget (text?_of_value hn) (hA x List.mem_cons_self)
  | arrow A B ihA ihB | product A B ihA ihB | sum A B ihA ihB =>
    obtain ⟨a, b, hget⟩ := Cell.shape_of_kind (kind_of_value h)
    obtain ⟨hA, hB⟩ := List.forall_mem_append.mp hA
    rw [value_of_get hget] at h
    obtain ⟨ha, hb⟩ : g.value a = A.value ∧ g.value b = B.value := by
      simpa [valueOf, Cell.kind, Cell.fields, Ty.value] using h
    have ha := ihA hA ha
    have hb := ihB hB hb
    first | exact .arrow hget ha hb | exact .product hget ha hb | exact .sum hget ha hb

theorem plainTerm_of_value {t : Term} (ht : ∀ x ∈ t.names, isPlain x = true) {r : Ref}
    (h : g.value r = t.value) : g.PlainTerm r t := by
  induction t generalizing r with
  | var x =>
    obtain ⟨n, hget⟩ := Cell.shape_of_kind (kind_of_value h)
    rw [value_of_get hget] at h
    have hn : g.value n = .name (.text x) := by
      simpa [valueOf, Cell.kind, Cell.fields, Term.value] using h
    exact .var hget (text?_of_value hn) (ht x List.mem_cons_self)
  | pair t u iht ihu =>
    obtain ⟨a, b, hget⟩ := Cell.shape_of_kind (kind_of_value h)
    obtain ⟨ht, hu⟩ := List.forall_mem_append.mp ht
    rw [value_of_get hget] at h
    obtain ⟨ha, hb⟩ : g.value a = t.value ∧ g.value b = u.value := by
      simpa [valueOf, Cell.kind, Cell.fields, Term.value] using h
    exact .pair hget (iht ht ha) (ihu hu hb)
  | inl t iht | inr t iht | fst t iht | snd t iht | abort t iht =>
    obtain ⟨a, hget⟩ := Cell.shape_of_kind (kind_of_value h)
    rw [value_of_get hget] at h
    have ha : g.value a = t.value := by
      simpa [valueOf, Cell.kind, Cell.fields, Term.value] using h
    have ha := iht ht ha
    first | exact .inl hget ha | exact .inr hget ha | exact .fst hget ha | exact .snd hget ha |
      exact .abort hget ha
  | case t u v iht ihu ihv =>
    obtain ⟨a, b, c, hget⟩ := Cell.shape_of_kind (kind_of_value h)
    obtain ⟨htu, hv⟩ := List.forall_mem_append.mp ht
    obtain ⟨ht, hu⟩ := List.forall_mem_append.mp htu
    rw [value_of_get hget] at h
    obtain ⟨ha, hb, hc⟩ : g.value a = t.value ∧ g.value b = u.value ∧ g.value c = v.value := by
      simpa [valueOf, Cell.kind, Cell.fields, Term.value] using h
    exact .case hget (iht ht ha) (ihu hu hb) (ihv hv hc)
  | lambda x A t iht =>
    obtain ⟨n, a, b, hget⟩ := Cell.shape_of_kind (kind_of_value h)
    obtain ⟨hx, hAt⟩ := List.forall_mem_cons.mp ht
    obtain ⟨hA, ht⟩ := List.forall_mem_append.mp hAt
    rw [value_of_get hget] at h
    obtain ⟨hn, ha, hb⟩ : g.value n = .name (.text x) ∧ g.value a = A.value ∧
        g.value b = t.value := by
      simpa [valueOf, Cell.kind, Cell.fields, Term.value] using h
    exact .lambda hget (text?_of_value hn) hx (plainTy_of_value hA ha) (iht ht hb)

theorem IsContext.plain {Γ : Context} (hΓ : ∀ x ∈ bindingNames Γ.bindings, isPlain x = true)
    (h : g.IsContext r Γ) : g.PlainContext r Γ := by
  obtain ⟨bs, hget, hbs⟩ := h
  refine ⟨bs, bs, hget, .refl bs, forall₂_imp_of_mem hbs fun b hb e hbind => ?_⟩
  obtain ⟨hname, -, hty⟩ := hbind
  have hb : ∀ x ∈ b.1 :: b.2.names, isPlain x = true :=
    fun x hx => hΓ x (List.mem_flatMap.mpr ⟨b, hb, hx⟩)
  obtain ⟨hx, hA⟩ := List.forall_mem_cons.mp hb
  exact ⟨by rw [text?, hname]; rfl, hx, plainTy_of_value hA hty⟩

theorem IsSequent.plain {q : Sequent} (hq : ∀ x ∈ q.names, isPlain x = true)
    (h : g.IsSequent r q) : g.PlainSequent r q := by
  obtain ⟨e, t, a, hget, he, ht, ha⟩ := h
  obtain ⟨hΓt, hA⟩ := List.forall_mem_append.mp hq
  obtain ⟨hΓ, hterm⟩ := List.forall_mem_append.mp hΓt
  exact ⟨e, t, a, hget, he.plain hΓ, plainTerm_of_value hterm ht, plainTy_of_value hA ha⟩

/-- What is added to a graph stands for itself there. -/
theorem IsDerivation.plain {d : Derivation} (hd : ∀ x ∈ d.names, isPlain x = true)
    (h : g.IsDerivation r d) : g.PlainDerivation r d := by
  induction d using Derivation.induction generalizing r with
  | node R q ds ih =>
    obtain ⟨hq, hds⟩ := List.forall_mem_append.mp hd
    rw [Derivation.allNames_eq] at hds
    cases h with
    | node hget hR hc hp hps =>
      refine .node hget hR (hc.plain hq) hp (forall₂_imp_of_mem hps fun d hmem p hpd => ?_)
      exact ih d hmem (fun x hx => hds x (List.mem_flatMap.mpr ⟨d, hmem, hx⟩)) hpd

/-! ## twins -/

/-- Well-formed sequents that stand for the same are twins. -/
theorem WellStated.twins {j j' : Judgement} (h : g.WellStated j) (h' : g'.WellStated j')
    (hs : g.statement j = g'.statement j') : g.Twins g' j j' := by
  obtain ⟨hcontext, hterm, hty⟩ : g.context (g.bindingsOf j.env) = g'.context (g'.bindingsOf j'.env) ∧
      g.value j.term = g'.value j'.term ∧ g.value j.ty = g'.value j'.ty := by
    simpa [statement] using hs
  obtain ⟨he, ht, ha⟩ := h
  obtain ⟨he', ht', ha'⟩ := h'
  refine ⟨⟨he, he', ?_⟩, ⟨ht, ht', hterm⟩, ⟨ha, ha', hty⟩⟩
  rw [value_of_kind_env (wellFormed_env_iff.mp he).1, value_of_kind_env (wellFormed_env_iff.mp he').1,
    hcontext]

/-- Two sequents that say the same, up to the order of the bindings. -/
theorem IsSequent.twins {c c' : Ref} {q q' : Sequent} (h : g.IsSequent c q) (h' : g'.IsSequent c' q')
    (hq : q.Named) (hq' : q'.Named) (he : q.assertion = q'.assertion) :
    ∃ j j', g.judgement? c = some j ∧ g'.judgement? c' = some j' ∧ g.Twins g' j j' := by
  obtain ⟨j, hj, hw, hs⟩ := h.spec hq
  obtain ⟨j', hj', hw', hs'⟩ := h'.spec hq'
  exact ⟨j, j', hj, hj', hw.twins hw' (by rw [hs, hs', he])⟩

theorem Twins.showSequent {c c' : Ref} {j j' : Judgement} (h : g.Twins g' j j')
    (hc : g.judgement? c = some j) (hc' : g'.judgement? c' = some j') (limit : Option Int) :
    g.showSequent limit c = g'.showSequent limit c' := by
  have htext : ∀ {g : Graph} {c : Ref} {j : Judgement}, g.judgement? c = some j →
      g.showSequent limit c = (do
        let env ← g.showEnv limit j.env
        let term ← g.showValue limit j.term
        let ty ← g.showValue limit j.ty
        return env ++ " ⊢ " ++ term ++ " : " ++ ty) := by
    intro g c j hc
    unfold judgement? at hc
    split at hc
    case h_2 => cases hc
    case h_1 e t a hget =>
      rw [← Option.some.inj hc, Graph.showSequent, showSequentWith, hget]
      rfl
  rw [htext hc, htext hc', h.env.showEnv, h.term.showValue (by decide), h.ty.showValue (by decide)]

theorem IsNode.outline {x : Ref} {R : Rule} {j : Judgement} {ps : List Ref} (h : g.IsNode x R j ps) :
    g.outline x = ⟨.derivation, some R, some false⟩ := by
  have hkind : (g.outline x).kind = .derivation := by
    have hj := h.conclusion
    unfold conclusion? at hj
    rw [kind_outline]
    cases hx : g.get x <;> rw [hx] at hj <;> first | rfl | cases hj
  have hrule : (g.outline x).rule = some R := by rw [rule_outline, h.rule]
  have hpremises : (g.outline x).premises = some false := sequenceOf?_eq_some_iff.mp ⟨ps, h.premises⟩
  cases ho : g.outline x
  simp_all

section
variable {d d' : Derivation} {x x' : Ref} (hdd' : d.Alike d') (h : g.IsDerivation x d)
  (h' : g'.IsDerivation x' d') (hd : d.Named) (hd' : d'.Named)
include hdd' h h' hd hd'

/-- The nodes of derivations that are alike record twins. -/
theorem IsDerivation.parallel : g.Parallel g' (g.Twins g') x x' := by
  induction d using Derivation.induction generalizing x x' d' with
  | node R q ds ih =>
    obtain ⟨hq, hds⟩ := hd
    cases hdd' with
    | node hqq' hdds =>
      obtain ⟨hq', hds'⟩ := hd'
      obtain ⟨j, ps, hnode, hw, hs, hps⟩ := h.isNode hq
      obtain ⟨j', ps', hnode', hw', hs', hps'⟩ := h'.isNode hq'
      have htwins : g.Twins g' j j' := hw.twins hw' (by rw [hs, hs', hqq'])
      refine Matches.parallel ⟨by rw [hnode.outline, hnode'.outline], ?_⟩ ?_
      · rw [hnode.conclusion, hnode'.conclusion]
        exact .some htwins
      · rw [hnode.premisesOf, hnode'.premisesOf]
        refine forall₂_through hps hdds hps' fun y _ e he e' he' y' _ hy hee' hy' => ?_
        exact ih e he hee' hy hy' (hds e he) (hds' e' he')

/-- Derivations that are alike have the same text. -/
theorem IsDerivation.showTree_eq {n n' : Nat} (hx : x < n) (hx' : x' < n') (indent : Int)
    (acc : String) :
    g.showTreeWith g.str n indent x acc = g'.showTreeWith g'.str n' indent x' acc := by
  induction d using Derivation.induction generalizing x x' d' n n' indent acc with
  | node R q ds ih =>
    obtain ⟨hq, hds⟩ := hd
    cases hdd' with
    | node hqq' hdds =>
      obtain ⟨hq', hds'⟩ := hd'
      obtain ⟨n, rfl⟩ := Nat.exists_eq_succ_of_ne_zero (Nat.ne_zero_of_lt hx)
      obtain ⟨n', rfl⟩ := Nat.exists_eq_succ_of_ne_zero (Nat.ne_zero_of_lt hx')
      cases h with
      | @node _ tag c p _ _ ps _ hget hR hc hp hps =>
      cases h' with
      | @node _ tag' c' p' _ _ ps' _ hget' hR' hc' hp' hps' =>
        have htag : g.str tag = .ok R.tag := str_of_text? (by rw [text?, hR]; rfl)
        have htag' : g'.str tag' = .ok R.tag := str_of_text? (by rw [text?, hR']; rfl)
        have hsequent : g.showSequentWith g.str none c = g'.showSequentWith g'.str none c' := by
          obtain ⟨j, j', hj, hj', htwins⟩ := hc.twins hc' hq hq' hqq'
          exact htwins.showSequent hj hj' none
        have hpremises : List.Forall₂ (fun y y' => ∀ acc,
            g.showTreeWith g.str n (indent + 1) y (acc ++ "\n") =
              g'.showTreeWith g'.str n' (indent + 1) y' (acc ++ "\n")) ps ps' := by
          refine forall₂_through hps hdds hps' fun y hy e he e' he' y' hy' hye hee' hye' acc => ?_
          have hlt := Nat.lt_of_lt_of_le (lt_of_premise hget hp hy) (Nat.le_of_lt_succ hx)
          have hlt' := Nat.lt_of_lt_of_le (lt_of_premise hget' hp' hy') (Nat.le_of_lt_succ hx')
          exact ih e he hee' hye hye' (hds e he) (hds' e' he') hlt hlt' (indent + 1) (acc ++ "\n")
        rw [showTreeWith, showTreeWith, hget, hget']
        simp only [htag, htag', hsequent, printedPremises, hp, hp', ok_bind]
        simp only [foldlM_eq_of_forall₂ hpremises]

/-- The verdicts on derivations that are alike are the same, for goals that say the same. -/
theorem IsDerivation.check_eq (limits : Limits) {target target' : Judgement}
    (htwins : g.Twins g' target target') :
    g.check limits x target = g'.check limits x' target' := by
  have hpar := h.parallel hdd' h' hd hd'
  have hnodes := fun {y} => h.wellStated hd (x := y)
  obtain ⟨he, ht, ha⟩ := htwins.wellStated.1
  have hw : g.WellRecorded x target := by
    refine ⟨envOk_none_iff.mpr he, termFault_none_iff.mpr ht, typeFault_none_iff.mpr ha, ?_⟩
    intro y hy _
    obtain ⟨R, j, ps, hnode, hj⟩ := hnodes hy
    exact conclusionOk_iff.mpr ⟨j, hnode.conclusion, hj⟩
  have hshallow : g.Shallow d.height x := (h.shallow_iff hd).mpr (Nat.le_refl _)
  refine check_of_twins limits hw (fun y hy _ => ?_) htwins hpar (sameLoops_of_shallow hpar hshallow)
  obtain ⟨R, j, ps, hnode, -⟩ := hnodes hy
  exact ⟨R, hnode.rule⟩

end

theorem IsDerivation.showDerivation_eq {d d' : Derivation} {x x' : Ref} (hdd' : d.Alike d')
    (h : g.IsDerivation x d) (h' : g'.IsDerivation x' d') (hd : d.Named) (hd' : d'.Named) :
    g.showDerivation 0 x = g'.showDerivation 0 x' :=
  h.showTree_eq hdd' h' hd hd' (Nat.lt_succ_of_lt h.lt_size) (Nat.lt_succ_of_lt h'.lt_size) 0 ""

end Graph

/-! ## runs -/

namespace CommandLine

/-- **A run cannot tell derivations that are alike apart**: it prints the same text of both and the
same verdict. -/
theorem report_of_alike (o : Options) (limits : Limits) {d d' : Derivation} (hdd' : d.Alike d')
    (hd : ∀ x ∈ d.names, isPlain x = true) (hd' : ∀ x ∈ d'.names, isPlain x = true)
    (goal : Option Sequent) (hgoal : ∀ q ∈ goal, ∀ x ∈ q.names, isPlain x = true) (err : String) :
    report o limits d goal err = report o limits d' goal err := by
  have hplain : ∀ {e : Derivation}, (∀ x ∈ e.names, isPlain x = true) →
      ∀ x ∈ (goal.getD e.conclusion).names, isPlain x = true := by
    intro e he
    cases goal with
    | none => exact fun x hx => he x (e.names_conclusion hx)
    | some q => exact hgoal q rfl
  have hsame : (goal.getD d.conclusion).assertion = (goal.getD d'.conclusion).assertion := by
    cases goal with
    | none => exact hdd'.conclusion
    | some q => rfl
  obtain ⟨g, tree, c, htree, hc, -, hreport⟩ := report_eq o limits hd (hplain hd) err
  obtain ⟨g', tree', c', htree', hc', -, hreport'⟩ := report_eq o limits hd' (hplain hd') err
  have hN := Derivation.named_of_isPlain hd
  have hN' := Derivation.named_of_isPlain hd'
  obtain ⟨j, j', hj, hj', htwins⟩ := hc.twins hc' (Sequent.named_of_isPlain (hplain hd))
    (Sequent.named_of_isPlain (hplain hd')) hsame
  have hecho : echoed o g tree = echoed o g' tree' := by
    rw [echoed, echoed, htree.showDerivation_eq hdd' htree' hN hN']
  have hend : conclude o limits g tree c err = conclude o limits g' tree' c' err := by
    funext echo
    unfold conclude
    rw [htwins.showSequent hj hj', hj, hj']
    simp only [htree.check_eq hdd' htree' hN hN' limits htwins]
  rw [hreport, hreport', hecho, hend]

theorem runOnText_of_alike (o : Options) (limits : Limits) {src src' : String} {d d' : Derivation}
    (h : parseDerivation src = .ok d) (h' : parseDerivation src' = .ok d') (hdd' : d.Alike d') :
    runOnText o limits src = runOnText o limits src' := by
  have hreport := fun goal hgoal => report_of_alike o limits hdd' (isPlain_of_parseDerivation h)
    (isPlain_of_parseDerivation h') goal hgoal
  unfold runOnText
  cases hgoal : o.goalText? with
  | none => simp only [h, h', hreport none nofun]
  | some text =>
    cases hq : parseSequent text with
    | error e => simp only [h, h', hq]
    | ok q =>
      have hplain : ∀ q' ∈ some q, ∀ x ∈ q'.names, isPlain x = true := by
        intro q' hq'
        rw [← Option.some.inj hq']
        exact isPlain_of_parseSequent hq
      simp only [h, h', hq, hreport (some q) hplain]

end CommandLine

end NaturalDeduction
