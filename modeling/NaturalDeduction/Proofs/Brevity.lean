import NaturalDeduction.Proofs.Truncation

/-!
# How long a message is

The values, environments and sequents in the message of a rejection are cut, and so is the way to a
misfit. A few texts are not: the name of a variable or of a parameter, the value in the place of a
rule, the number of premises and the limit on the depth. A message holds at most one of them.

* `Output.Short`         printing with a limit never holds much more than the limit;
* `Brief`                a text with at most so many characters, if there is one;
* `RuleFault.Cites`      what a fault of a node is about: names in the term of its goal, say;
* `Graph.InFull`         the texts that a message writes in full;
* `message_brief`        a message is one of them, with at most 773 characters around it;
* `message_longName`     so it can be as long as a name is.
-/

namespace NaturalDeduction

/-! ## printing with a limit -/

theorem length_cutTo_le (n : Nat) (s : String) (h : n ≤ s.length) : (cutTo n s).length ≤ n := by
  have hn : n ≤ s.toList.length := by rwa [String.length_toList]
  rw [cutTo, Text.takeTo_natCast _ hn, String.length_ofList]
  exact List.length_take_le n s.toList

theorem length_cut_le (n : Nat) (s : String) : (cut (some n) s).length ≤ n + 1 := by
  show (if (s.length : Int) > n then cutTo n s ++ ellipsis else s).length ≤ n + 1
  by_cases h : s.length ≤ n
  · rw [if_neg (by omega)]
    omega
  · rw [if_pos (by omega), String.length_append]
    have := length_cutTo_le n s (by omega)
    have hmark : ellipsis.length = 1 := rfl
    omega

namespace Output

/-- Printing with the limit `n` goes on within it, or has stopped with one character more. -/
def Short (n : Nat) : Except Halt Output → Prop
  | .ok o => o.Within (some n)
  | .error (.cut s) => s.length ≤ n + 1
  | .error (.failure _) => True

variable {n : Nat} {o : Output}

theorem Within.short_put (ho : o.Within (some n)) (s : String) :
    Short n (o.put (signed (some n)) s) := by
  cases h : o.put (signed (some n)) s with
  | ok o' => exact ho.put h
  | error e =>
    rw [put_some] at h
    split at h
    case isTrue => cases h
    case isFalse hn =>
      obtain rfl := Except.error.inj h
      have hsize := ho.size
      have hlen : n ≤ (o.text ++ s).length := by
        rw [String.length_append]
        omega
      show (cutTo n (o.text ++ s) ++ ellipsis).length ≤ n + 1
      rw [String.length_append]
      exact Nat.add_le_add_right (length_cutTo_le n _ hlen) 1

theorem Short.bind {x : Except Halt Output} {f : Output → Except Halt Output} (hx : Short n x)
    (hf : ∀ o : Output, o.Within (some n) → Short n (f o)) : Short n (x >>= f) := by
  cases x with
  | ok o => exact hf o hx
  | error e => exact hx

end Output

/-- A text with at most `n` characters, if there is one. -/
def Brief (n : Nat) (x : Except Failure String) : Prop := ∀ s, x = .ok s → s.length ≤ n

theorem brief_ok {n : Nat} {s : String} (h : s.length ≤ n) : Brief n (.ok s) := by
  intro t ht
  rwa [← Except.ok.inj ht]

theorem brief_error {n : Nat} {f : Failure} : Brief n (.error f) := nofun

theorem Brief.bind {n k : Nat} {x : Except Failure String} {f : String → Except Failure String}
    (hx : Brief n x) (hf : ∀ s, s.length ≤ n → Brief k (f s)) : Brief k (x >>= f) := by
  intro t ht
  obtain ⟨s, hs, ht⟩ := bind_eq_ok.mp ht
  exact hf s (hx s hs) t ht

namespace Graph
variable {g : Graph}

section
variable {str : Ref → Except Failure String} {n : Nat}

theorem short_emitPieces {ps : List Piece}
    (ih : ∀ r, .part r ∈ ps → ∀ o : Output, o.Within (some n) →
      Output.Short n (g.emit str (signed (some n)) r o))
    {o : Output} (ho : o.Within (some n)) :
    Output.Short n (g.emitPieces str (signed (some n)) ps o) := by
  induction ps generalizing o with
  | nil => exact ho
  | cons p ps ih' =>
    rw [emitPieces, List.foldlM_cons]
    refine Output.Short.bind ?_ fun o' ho' => ih' (fun r hr => ih r (List.mem_cons_of_mem p hr)) ho'
    cases p with
    | lit s => exact ho.short_put s
    | part r => exact ih r List.mem_cons_self o ho

theorem short_emit (r : Ref) : ∀ o : Output, o.Within (some n) →
    Output.Short n (g.emit str (signed (some n)) r o) := by
  induction r using Nat.strongRecOn with
  | ind r ih =>
    intro o ho
    cases hps : g.pieces str r with
    | error f =>
      have hemit : g.emit str (signed (some n)) r o = .error (.failure f) := by
        rw [emit]
        split <;> simp_all
      rw [hemit]
      trivial
    | ok ps =>
      rw [emit_of_pieces hps]
      exact short_emitPieces (fun q hq => ih q (lt_of_part_mem_pieces hps hq)) ho

theorem brief_finish {x : Except Halt Output} (h : Output.Short n x) :
    Brief (n + 1) (finish x) := by
  rcases x with (s | f) | o
  · exact brief_ok h
  · exact brief_error
  · have hsize : o.size ≤ n := h.le n rfl
    rw [h.size] at hsize
    exact brief_ok (Nat.le_succ_of_le hsize)

end

theorem brief_showValue (r : Ref) : Brief 121 (g.showValue shown r) :=
  brief_finish (short_emit r .empty (Output.within_empty (some 120)))

theorem brief_showPieces (ps : List Piece) : Brief 121 (g.showPieces shown ps) :=
  brief_finish (short_emitPieces (fun r _ => short_emit r) (Output.within_empty (some 120)))

theorem brief_showBindings (bs : List (Ref × Ref)) : Brief 123 (g.showBindings shown bs) := by
  intro t ht
  obtain ⟨es, -, ht⟩ := bind_eq_ok.mp ht
  obtain ⟨parts, -, ht⟩ := bind_eq_ok.mp ht
  obtain rfl := Except.ok.inj ht
  rw [String.length_append, String.length_append]
  have hcut : (cut shown (commas parts)).length ≤ 121 := length_cut_le 120 (commas parts)
  show 1 + (cut shown (commas parts)).length + 1 ≤ 123
  omega

theorem brief_showEnv (e : Ref) : Brief 123 (g.showEnv shown e) := by
  rw [showEnv, showEnvWith]
  split
  case h_1 bs _ => exact brief_showBindings bs
  case h_2 => exact brief_error

/-- The text of a sequent, from the texts of its parts. -/
theorem length_sequent_le {env term ty : String} (he : env.length ≤ 123) (ht : term.length ≤ 121)
    (ha : ty.length ≤ 121) : (env ++ " ⊢ " ++ term ++ " : " ++ ty).length ≤ 371 := by
  simp only [String.length_append]
  show env.length + 3 + term.length + 3 + ty.length ≤ 371
  omega

theorem brief_showJudgement (j : Judgement) : Brief 371 (g.showJudgement j) :=
  (brief_showEnv j.env).bind fun _ he => (brief_showValue j.term).bind fun _ ht =>
    (brief_showValue j.ty).bind fun _ ha => brief_ok (length_sequent_le he ht ha)

theorem brief_showPremise (ps : List Ref) (i : Nat) : Brief 371 (g.showPremise ps i) := by
  rw [showPremise_eq]
  split
  case h_1 => exact brief_error
  case h_2 => exact brief_error
  case h_3 j _ => exact brief_showJudgement j

end Graph

/-! ## what is asked for -/

theorem Demand.brief_text (g : Graph) (d : Demand) : Brief 371 (d.text g) := by
  have henv : Brief 123 (d.env.text g) := by
    unfold EnvForm.text
    split
    case h_1 e _ => exact Graph.brief_showEnv e
    case h_2 bs _ => exact Graph.brief_showBindings bs
  exact henv.bind fun _ he => (Graph.brief_showValue d.term).bind fun _ ht =>
    (Graph.brief_showPieces d.ty.pieces).bind fun _ ha =>
      brief_ok (Graph.length_sequent_le he ht ha)

theorem Expectation.brief_text (g : Graph) (e : Expectation) : Brief 371 (e.text g) := by
  cases e with
  | demand d => exact d.brief_text g
  | scrutinee => exact brief_ok (by decide)
  | component s a =>
    refine (Graph.brief_showValue a).bind fun t ht => brief_ok ?_
    have hside : s.name.length ≤ 5 := by cases s <;> decide
    simp only [String.length_append]
    show 21 + s.name.length + 14 + t.length ≤ 371
    omega

namespace RuleFault

/-- What a fault is about: a name is one in the term of the goal, a premise is one of the first
three, and a number of premises is the one that there are. -/
def Cites (g : Graph) (ps : List Ref) (goal : Judgement) : RuleFault → Prop
  | term _ => True
  | type _ => True
  | arity n => n = ps.length
  | unbound x _ => x ∈ (g.get goal.term).labels
  | assumption x _ _ => x ∈ (g.get goal.term).labels
  | parameter x _ _ => x ∈ (g.get goal.term).labels
  | premise i _ => i < 3

end RuleFault

namespace Graph
variable {g : Graph} {ps : List Ref} {goal : Judgement}

/-- A step whose faults are about the node. -/
def Citing (g : Graph) (ps : List Ref) (goal : Judgement) {α : Type} (x : Except NodeStop α) :
    Prop := ∀ f, x = .error (.fault f) → f.Cites g ps goal

section
variable {α β : Type}

theorem citing_ok (a : α) : g.Citing ps goal (.ok a : Except NodeStop α) := nofun

theorem citing_fault {f : RuleFault} (h : f.Cites g ps goal) :
    g.Citing ps goal (.error (.fault f) : Except NodeStop α) := by
  intro f' hf
  obtain rfl : f = f' := by simpa using hf
  exact h

theorem citing_mapError (x : Except Failure α) :
    g.Citing ps goal (x.mapError NodeStop.failure) := by
  cases x <;> exact nofun

theorem Citing.bind {x : Except NodeStop α} {f : α → Except NodeStop β} (hx : g.Citing ps goal x)
    (hf : ∀ a, g.Citing ps goal (f a)) : g.Citing ps goal (x >>= f) := by
  intro f' h
  rcases bind_eq_error.mp h with h | ⟨a, -, h⟩
  · exact hx f' h
  · exact hf a f' h

end

theorem citing_expectArity (R : Rule) : g.Citing ps goal (expectArity R ps) := by
  unfold expectArity
  split
  case isTrue => exact citing_ok ()
  case isFalse => exact citing_fault rfl

theorem citing_expectPremise {i : Nat} (hi : i < 3) (d : Demand) :
    g.Citing ps goal (g.expectPremise ps i d) := by
  have hpremise : g.Citing ps goal (g.premise ps i) := by
    unfold premise
    split
    case h_1 => exact nofun
    case h_2 => split <;> exact nofun
  refine hpremise.bind fun j => ?_
  split
  case isTrue => exact citing_ok _
  case isFalse => exact citing_fault hi

theorem citing_expectProjection (d : Demand) (s : Side) (a : Ref) :
    g.Citing ps goal (g.expectProjection ps d s a) := by
  refine (citing_expectPremise (by omega) d).bind fun ty => ?_
  split
  case isTrue => exact citing_ok ()
  case isFalse => exact citing_fault (show 0 < 3 by omega)

theorem citing_expectAll {ds : List Demand} {i : Nat} (hi : i + ds.length ≤ 3) :
    g.Citing ps goal (g.expectAll ps i ds) := by
  induction ds generalizing i with
  | nil => exact citing_ok ()
  | cons d ds ih =>
    rw [List.length_cons] at hi
    exact (citing_expectPremise (by omega) d).bind fun _ => ih (by omega)

theorem citing_answer {k : Ask} (hk : k.All (fun _ => True) (· ∈ (g.get goal.term).labels))
    (ha : k.arity ≤ 3) : g.Citing ps goal (g.answer ps goal k) := by
  cases k with
  | assumption x =>
    refine (citing_mapError _).bind fun found => ?_
    split
    case h_1 => exact citing_fault hk
    case h_2 =>
      split
      case isTrue => exact citing_ok ()
      case isFalse => exact citing_fault hk
  | conclusions cs => exact citing_expectAll (by simpa [Ask.arity] using ha)
  | falsity t => exact citing_expectAll (by simp)
  | disjunction t u v =>
    refine (citing_expectPremise (by omega) _).bind fun ty => ?_
    split
    case h_1 => exact citing_expectAll (by simp)
    case h_2 => exact citing_fault (show 0 < 3 by omega)
  | component s t => exact citing_expectProjection _ _ _
  | body x a t b => exact (citing_mapError _).bind fun _ => citing_expectAll (by simp)

/-- A fault of a node is about the node. -/
theorem citing_checkNode (R : Rule) : g.Citing ps goal (g.checkNode R ps goal) := by
  rw [checkNode_eq]
  cases hk : g.ask R goal with
  | inl f =>
    rcases fault_of_ask hk with ⟨-, rfl | rfl⟩ | ⟨x, a, b, t, c, rfl, -, ht, -⟩
    · exact citing_fault trivial
    · exact citing_fault trivial
    · exact citing_fault (show x ∈ (g.get goal.term).labels by simp [ht, Cell.labels])
  | inr k =>
    have hall : k.All (fun _ => True) (· ∈ (g.get goal.term).labels) :=
      ask_all (fun _ _ => trivial) (fun _ _ => trivial) (fun _ hx => hx) hk
    have harity : k.arity ≤ 3 := by
      rw [arity_of_ask hk]
      cases R <;> decide
    exact (citing_expectArity R).bind fun _ => citing_answer hall harity

/-! ## what is not cut -/

/-- What the message of a rejection at the location `l` writes in full: nothing, the limit on the
depth, the value in the place of the rule of the node there, the number of its premises, or a name
in the term of its goal. -/
inductive InFull (g : Graph) (limits : Limits) (tree : Ref) (target : Judgement) (l : Location) :
    String → Prop
  | nothing : InFull g limits tree target l ""
  | limit : InFull g limits tree target l limits.written
  | rule {p : List Nat} {x R c q : Ref} (hl : l = p.map Int.ofNat) (hx : g.nodeAt? tree p = some x)
      (h : g.get x = .derivation R c q) : InFull g limits tree target l (g.quote R)
  | premises {p : List Nat} {x : Ref} (hl : l = p.map Int.ofNat) (hx : g.nodeAt? tree p = some x) :
      InFull g limits tree target l (g.premisesOf x).length.repr
  | name {p : List Nat} {j : Judgement} {n : Ref} {s : String} (hl : l = p.map Int.ofNat)
      (hj : g.goalAt? tree target p = some j) (hn : n ∈ (g.get j.term).labels)
      (hs : g.text? n = some s) : InFull g limits tree target l s

end Graph

/-- A text stands in a message with at most `n` characters around it. -/
def Around (n : Nat) (full message : String) : Prop :=
  ∃ before after, message = before ++ full ++ after ∧ before.length + after.length ≤ n

theorem around_empty {n : Nat} {m : String} (h : m.length ≤ n) : Around n "" m :=
  ⟨m, "", by rw [String.append_empty, String.append_empty], h⟩

theorem around_last {n : Nat} {m : String} (full : String) (h : m.length ≤ n) :
    Around n full (m ++ full) :=
  ⟨m, "", by rw [String.append_empty], h⟩

theorem around_first {n : Nat} {m : String} (full : String) (h : m.length ≤ n) :
    Around n full (full ++ m) :=
  ⟨"", m, by rw [String.empty_append], by rwa [String.length_empty, Nat.zero_add]⟩

theorem Rule.length_tag_le (R : Rule) : R.tag.length ≤ 11 := by cases R <;> decide

namespace RuleFault
variable {g : Graph} {R : Rule} {ps : List Ref} {goal : Judgement} {f : RuleFault}

/-- What the message of a fault writes in full. -/
def Writes (g : Graph) : RuleFault → String → Prop
  | arity n, s => s = n.repr
  | unbound x _, s => g.str x = .ok s
  | assumption x _ _, s => g.str x = .ok s
  | parameter x _ _, s => g.str x = .ok s
  | _, s => s = ""

/-- The text of a fault of the term or the type. -/
theorem length_needs_le {shape got : String} (hshape : shape.length ≤ 18)
    (hgot : got.length ≤ 121) :
    (R.tag ++ " needs " ++ shape ++ ", got " ++ got).length ≤ 773 := by
  have htag := R.length_tag_le
  simp only [String.length_append]
  show R.tag.length + 7 + shape.length + 6 + got.length ≤ 773
  omega

/-- The text of a fault of a premise, which has a number of one digit. -/
theorem length_premise_le {i : Nat} {got expected : String} (hi : i < 3)
    (hgot : got.length ≤ 371) (hexpected : expected.length ≤ 371) :
    ("premise " ++ i.repr ++ " concludes " ++ got ++ ", expected " ++ expected).length ≤ 773 := by
  have hindex : i.repr.length = 1 := by
    obtain rfl | rfl | rfl : i = 0 ∨ i = 1 ∨ i = 2 := by omega
    all_goals rfl
  simp only [String.length_append]
  show 8 + i.repr.length + 11 + got.length + 11 + expected.length ≤ 773
  omega

/-- The message of a fault, around what it writes in full. -/
theorem around_message (hcites : f.Cites g ps goal) {m : String} (hm : f.message g R ps = .ok m) :
    ∃ full, f.Writes g full ∧ Around 773 full m := by
  cases f with
  | term t =>
    obtain ⟨s, hs, hm⟩ := bind_eq_ok.mp hm
    obtain rfl := Except.ok.inj hm
    have hshape : R.termShape.length ≤ 18 := by cases R <;> decide
    exact ⟨"", rfl, around_empty (length_needs_le hshape (Graph.brief_showValue t s hs))⟩
  | type a =>
    obtain ⟨s, hs, hm⟩ := bind_eq_ok.mp hm
    obtain rfl := Except.ok.inj hm
    have hshape : R.typeShape.length ≤ 18 := by cases R <;> decide
    exact ⟨"", rfl, around_empty (length_needs_le hshape (Graph.brief_showValue a s hs))⟩
  | arity n =>
    obtain rfl := Except.ok.inj hm
    refine ⟨_, rfl, around_last _ ?_⟩
    have htag := R.length_tag_le
    have harity : R.arity.repr.length = 1 := by cases R <;> decide
    simp only [String.length_append]
    show R.tag.length + 7 + R.arity.repr.length + 17 ≤ 773
    omega
  | unbound n e =>
    obtain ⟨s, hs, hm⟩ := bind_eq_ok.mp hm
    obtain ⟨t, ht, hm⟩ := bind_eq_ok.mp hm
    obtain rfl := Except.ok.inj hm
    have hlen := Graph.brief_showEnv e t ht
    refine ⟨s, hs, ?_⟩
    rw [String.append_assoc]
    refine around_first s ?_
    rw [String.length_append]
    show 17 + t.length ≤ 773
    omega
  | assumption n a b =>
    obtain ⟨s, hs, hm⟩ := bind_eq_ok.mp hm
    obtain ⟨t, ht, hm⟩ := bind_eq_ok.mp hm
    obtain ⟨u, hu, hm⟩ := bind_eq_ok.mp hm
    obtain rfl := Except.ok.inj hm
    have hlen := Graph.brief_showValue a t ht
    have hlen' := Graph.brief_showValue b u hu
    refine ⟨s, hs, ?_⟩
    rw [String.append_assoc, String.append_assoc, String.append_assoc]
    refine around_first s ?_
    simp only [String.length_append]
    show 10 + (t.length + (6 + u.length)) ≤ 773
    omega
  | parameter n a b =>
    obtain ⟨t, ht, hm⟩ := bind_eq_ok.mp hm
    obtain ⟨s, hs, hm⟩ := bind_eq_ok.mp hm
    obtain ⟨u, hu, hm⟩ := bind_eq_ok.mp hm
    obtain rfl := Except.ok.inj hm
    have hlen := Graph.brief_showValue a t ht
    have hlen' := Graph.brief_showValue b u hu
    refine ⟨s, hs, "parameter ", " has type " ++ t ++ " but the function type expects " ++ u,
      by simp only [String.append_assoc], ?_⟩
    simp only [String.length_append]
    show 10 + (10 + t.length + 31 + u.length) ≤ 773
    omega
  | premise i e =>
    obtain ⟨s, hs, hm⟩ := bind_eq_ok.mp hm
    obtain ⟨t, ht, hm⟩ := bind_eq_ok.mp hm
    obtain rfl := Except.ok.inj hm
    exact ⟨"", rfl, around_empty
      (length_premise_le hcites (Graph.brief_showPremise ps i s hs) (e.brief_text g t ht))⟩

end RuleFault

namespace Graph
variable {g : Graph} {limits : Limits} {tree : Ref} {target : Judgement} {r : Reject}

/-- What the message of a fault writes in full is nothing, a number of premises, or a name in the
term of the goal. -/
theorem inFull_of_writes {p : List Nat} {x : Ref} {goal : Judgement} {f : RuleFault} {full : String}
    (hx : g.nodeAt? tree p = some x) (hj : g.goalAt? tree target p = some goal)
    (hapt : f.Apt g (g.premisesOf x)) (hcites : f.Cites g (g.premisesOf x) goal)
    (h : f.Writes g full) : full = "" ∨ g.InFull limits tree target (p.map Int.ofNat) full := by
  have hname : ∀ n, g.isName n = true → n ∈ (g.get goal.term).labels → g.str n = .ok full →
      g.InFull limits tree target (p.map Int.ofNat) full := by
    intro n hn hlabel hs
    obtain ⟨w, -, hw⟩ := exists_name hn
    obtain rfl : w.word = full := Except.ok.inj ((str_of_text? hw).symm.trans hs)
    exact .name rfl hj hlabel hw
  cases f with
  | term | type | premise => exact .inl h
  | arity n =>
    obtain rfl : n = (g.premisesOf x).length := hcites
    obtain rfl : full = _ := h
    exact .inr (.premises rfl hx)
  | unbound n e | assumption n a b | parameter n a b => exact .inr (hname n hapt.1 hcites h)

/-- A rejection for a fault has the message of the fault; it is at the node, or the fault writes
nothing in full. -/
theorem location_of_reject {R : Rule} {ps : List Ref} {l : Location} {f : RuleFault}
    (h : f.reject g R ps l = .ok r) :
    f.message g R ps = .ok r.message ∧ (r.location = l ∨ ∀ full, f.Writes g full → full = "") := by
  obtain ⟨m, hm, h⟩ := bind_eq_ok.mp h
  cases f with
  | premise i e =>
    refine ⟨?_, .inr fun _ h => h⟩
    cases hp : ps[i]? with
    | none =>
      simp only [hp] at h
      cases h
    | some q =>
      simp only [hp] at h
      obtain rfl := Except.ok.inj h
      exact hm
  | _ =>
    obtain rfl := Except.ok.inj h
    exact ⟨hm, .inl rfl⟩

/-! ## verdicts -/

/-- The message of a rejection is a text that it writes in full, with at most 773 characters around
it. -/
def Enclosed (g : Graph) (limits : Limits) (tree : Ref) (target : Judgement) (r : Reject) : Prop :=
  ∃ full, g.InFull limits tree target r.location full ∧ Around 773 full r.message

theorem enclosed_of_length (h : r.message.length ≤ 773) : g.Enclosed limits tree target r :=
  ⟨"", .nothing, around_empty h⟩

theorem enclosed_of_runsTo {memo : Memo} {s : Survey} (hm : g.checkTarget target = .ok memo)
    (hs : g.survey limits.written limits.maxDepth [] {} tree ⟨{}, memo⟩ = .ok s)
    (h : g.RunsTo [] tree target (.error (.reject r))) : g.Enclosed limits tree target r := by
  cases h with
  | @fails p x j _ hx hj he _ =>
    obtain ⟨-, hps, hgoal⟩ := apt_of_goalAt? hm hs hx hj
    obtain ⟨R, f, -, hf, hr⟩ := fault_of_checkAt he
    have hapt := checkNode_safe hps hgoal R
    rw [hf] at hapt
    have hcites := citing_checkNode R f hf
    have hloc : Location.ofPath (p.reverse ++ []) = p.map Int.ofNat := by
      rw [List.append_nil, Location.ofPath, List.reverse_reverse]
    rw [hloc] at hr
    obtain ⟨hmessage, hplace⟩ := location_of_reject hr
    obtain ⟨full, hwrites, haround⟩ := RuleFault.around_message hcites hmessage
    refine ⟨full, ?_, haround⟩
    rcases inFull_of_writes hx hj hapt hcites hwrites with rfl | hfull
    · exact .nothing
    · rcases hplace with hplace | hnone
      · rwa [hplace]
      · rw [hnone full hwrites]
        exact .nothing

theorem enclosed_of_checkConclusion (h : g.checkConclusion tree target = .error (.reject r)) :
    g.Enclosed limits tree target r := by
  unfold checkConclusion at h
  split at h
  case h_1 => cases h
  case h_2 j _ =>
    split at h
    case isTrue => cases h
    case isFalse =>
      simp only at h
      split at h
      case h_1 => cases h
      case h_2 m hm =>
        obtain rfl := Stop.reject.inj (Except.error.inj h)
        obtain ⟨s, hs, hm⟩ := bind_eq_ok.mp hm
        obtain ⟨t, ht, hm⟩ := bind_eq_ok.mp hm
        obtain rfl := Except.ok.inj hm
        have hlen := brief_showJudgement j s hs
        have hlen' := brief_showJudgement target t ht
        refine enclosed_of_length ?_
        simp only [String.length_append]
        show 15 + s.length + 12 + t.length ≤ 773
        omega

/-- A survey rejects a node below its start; where it does so for the rule of a node, that is the
node at the location. -/
theorem enclosed_of_survey {levels : Nat} : ∀ {path : List Nat} {above : RefSet} {x : Ref}
    {s : Survey}, g.nodeAt? tree path.reverse = some x →
      g.survey limits.written levels path above x s = .error (.reject r) →
      g.Enclosed limits tree target r := by
  induction levels using Nat.strongRecOn with
  | ind levels ih =>
    intro path above x s hx h
    obtain h | ⟨n, rfl, q, hq, t, h⟩ := survey_eq_reject h
    · have hkind : ∀ k : Kind, ("expected a derivation, got " ++ k.name).length ≤ 773 := by
        intro k
        have hname : k.name.length ≤ 10 := by cases k <;> decide
        rw [String.length_append]
        show 27 + k.name.length ≤ 773
        omega
      cases h with
      | kind => exact enclosed_of_length (hkind _)
      | loop => exact enclosed_of_length (show "derivation contains itself".length ≤ 773 by decide)
      | deep => exact ⟨_, .limit, around_last _ (by decide)⟩
      | rule hget => exact ⟨_, .rule rfl hx hget, around_last _ (by decide)⟩
      | premises =>
        exact enclosed_of_length
          (show "premises must be a sequence of derivations".length ≤ 773 by decide)
      | bytes => exact enclosed_of_length (hkind _)
      | conclusion =>
        exact enclosed_of_length
          (show "recorded conclusion is not a well-formed sequent".length ≤ 773 by decide)
    · refine ih n (Nat.lt_succ_self n) ?_ h
      rw [List.reverse_cons, nodeAt?_append, hx]
      exact List.mem_zipIdx_iff_getElem?.mp hq

end Graph

theorem length_intercalate_le (sep : String) {k : Nat} {ls : List String}
    (h : ∀ s ∈ ls, s.length ≤ k) :
    (sep.intercalate ls).length ≤ ls.length * (k + sep.length) := by
  induction ls with
  | nil => exact Nat.zero_le _
  | cons a ls ih =>
    obtain ⟨ha, hls⟩ := List.forall_mem_cons.mp h
    cases ls with
    | nil =>
      rw [String.intercalate_singleton, List.length_singleton]
      omega
    | cons b ls =>
      have hrest := ih hls
      rw [String.intercalate_cons_cons, String.length_append, String.length_append,
        List.length_cons, Nat.succ_mul]
      omega

/-- Twelve fields of a way, and the mark for the rest. -/
theorem length_pathText_le (what : String) (h : what.length ≤ 4) (p : Path) :
    (pathText what p).length ≤ 134 := by
  have hlabels : (".".intercalate ((p.take 12).map Field.label)).length ≤ 132 := by
    have hlabel : ∀ s ∈ (p.take 12).map Field.label, s.length ≤ 10 := by
      intro s hs
      obtain ⟨f, -, rfl⟩ := List.mem_map.mp hs
      cases f <;> decide
    have hlen := length_intercalate_le "." hlabel
    have htake : ((p.take 12).map Field.label).length ≤ 12 := by
      rw [List.length_map]
      exact List.length_take_le 12 p
    have hsep : ".".length = 1 := rfl
    rw [hsep] at hlen
    omega
  have hcut : (if p.length > 12 then ".".intercalate ((p.take 12).map Field.label) ++ ".…"
      else ".".intercalate ((p.take 12).map Field.label)).length ≤ 134 := by
    split
    case isTrue =>
      rw [String.length_append]
      exact Nat.add_le_add_right hlabels 2
    case isFalse => omega
  have hchoice : ∀ labels : String, labels.length ≤ 134 →
      (if labels == "" then what else labels).length ≤ 134 := by
    intro labels hlabels
    split
    case isTrue => omega
    case isFalse => exact hlabels
  exact hchoice _ hcut

namespace Graph
variable {g : Graph} {limits : Limits} {tree : Ref} {target : Judgement} {r : Reject}

theorem length_of_checkTarget (h : g.checkTarget target = .error r) : r.message.length ≤ 773 := by
  unfold checkTarget at h
  split at h
  case h_1 =>
    obtain rfl := Except.error.inj h
    exact (by decide : "environment is malformed".length ≤ 773)
  case h_2 =>
    split at h
    case h_1 p _ _ =>
      obtain rfl := Except.error.inj h
      have hpath := length_pathText_le "term" (by decide) p
      show ("term is malformed at " ++ pathText "term" p).length ≤ 773
      rw [String.length_append]
      show 21 + (pathText "term" p).length ≤ 773
      omega
    case h_2 =>
      split at h
      case h_1 p _ _ =>
        obtain rfl := Except.error.inj h
        have hpath := length_pathText_le "type" (by decide) p
        show ("type is malformed at " ++ pathText "type" p).length ≤ 773
        rw [String.length_append]
        show 21 + (pathText "type" p).length ≤ 773
        omega
      case h_2 => cases h

/-- **A message is short but for one text.** The message of a rejection, however large the derivation
is, has at most 773 characters around at most one text that it writes in full; so it has less than
1000, unless a name, the value in the place of a rule, or the text of a number is longer than 226. -/
theorem message_brief (h : g.check limits tree target = .ok (.reject r)) :
    ∃ before full after, r.message = before ++ full ++ after ∧
      g.InFull limits tree target r.location full ∧ before.length + after.length ≤ 773 := by
  have hbrief : g.Enclosed limits tree target r := by
    obtain hm | ⟨memo, hm, hs | ⟨s, hs, hrules | ⟨-, hend⟩⟩⟩ := reject_cases h
    · exact enclosed_of_length (length_of_checkTarget hm)
    · exact enclosed_of_survey (show g.nodeAt? tree [].reverse = some tree from rfl) hs
    · exact enclosed_of_runsTo hm hs (hrules ▸ runsTo_of_survey hm hs)
    · exact enclosed_of_checkConclusion hend
  obtain ⟨full, hfull, before, after, hmessage, hlen⟩ := hbrief
  exact ⟨before, full, after, hmessage, hfull, hlen⟩

/-! ## long names -/

/-- A derivation of `⊢ w : P` by the assumption rule, for a variable with the name `w`. -/
def loneVariable (w : String) : Graph where
  cells := #[.text w, .text "P", .base 1, .var 0, .env [], .sequent 4 3 2, .rule .assm, .tuple [],
    .derivation 6 5 7]
  below := of_decide_eq_true rfl
  apart := of_decide_eq_true rfl

theorem isNode_loneVariable (w : String) : (loneVariable w).IsNode 8 .assm ⟨4, 3, 2⟩ [] :=
  ⟨rfl, rfl, rfl⟩

/-- What is said about the variable, which nothing binds. -/
theorem reject_loneVariable (w : String) :
    RuleFault.reject (loneVariable w) .assm [] (.ofPath []) (.unbound 0 4) =
      .ok ⟨.unboundVariable, [], some .assm, w ++ " is not bound in \x7b\x7d"⟩ := by
  have hstr : (loneVariable w).str 0 = .ok w := str_of_text? rfl
  have henv : (loneVariable w).showEnv shown 4 = .ok "\x7b\x7d" := by
    have hsort : (loneVariable w).sortByName [] = .ok [] := by simp [sortByName, allPairs]
    show (loneVariable w).showBindings shown [] = _
    rw [showBindings, showBindingsWith, hsort]
    exact congrArg Except.ok (by decide)
  rw [RuleFault.reject, RuleFault.message, hstr, henv]
  exact congrArg (fun m => Except.ok (Reject.mk .unboundVariable [] (some .assm) m))
    (String.append_assoc ..)

section
variable {w : String} (hw : w ≠ "")
include hw

theorem isName_loneVariable : (loneVariable w).isName 0 = true := by
  show (w != "") = true
  simpa using hw

theorem wellStated_loneVariable : (loneVariable w).WellStated ⟨4, 3, 2⟩ := by
  refine ⟨.intro rfl nofun, .intro ?_ nofun, .intro rfl nofun⟩
  rw [fits_iff]
  refine ⟨rfl, fun n hn => ?_⟩
  obtain rfl : n = 0 := List.mem_singleton.mp hn
  exact isName_loneVariable hw

theorem wellRecorded_loneVariable : (loneVariable w).WellRecorded 8 ⟨4, 3, 2⟩ := by
  have hj := wellStated_loneVariable hw
  refine ⟨envOk_none_iff.mpr hj.1, termFault_none_iff.mpr hj.2.1, typeFault_none_iff.mpr hj.2.2, ?_⟩
  intro x hx _
  obtain rfl | ⟨q, hq, -⟩ := below_iff.mp hx
  · exact conclusionOk_iff.mpr ⟨_, rfl, hj⟩
  · exact absurd hq List.not_mem_nil

theorem checkAt_loneVariable : (loneVariable w).checkAt [] 8 ⟨4, 3, 2⟩ =
    .error (.reject ⟨.unboundVariable, [], some .assm, w ++ " is not bound in \x7b\x7d"⟩) := by
  have hfault : (loneVariable w).checkNode .assm [] ⟨4, 3, 2⟩ = .error (.fault (.unbound 0 4)) := by
    show (((loneVariable w).lookup [] 0).mapError NodeStop.failure >>= _) = _
    rw [lookup, if_pos (hashable_of_isName (isName_loneVariable hw))]
    rfl
  have hnode := isNode_loneVariable w
  rw [checkAt, hnode.rule]
  simp only [hnode.premisesOf, hfault, reject_loneVariable]

/-- The message repeats the name, whatever its length is. -/
theorem check_loneVariable : (loneVariable w).check .default 8 ⟨4, 3, 2⟩ =
    .ok (.reject ⟨.unboundVariable, [], some .assm, w ++ " is not bound in \x7b\x7d"⟩) := by
  have hsteps : (loneVariable w).checkSteps .default 8 ⟨4, 3, 2⟩ = .error (.reject
      ⟨.unboundVariable, [], some .assm, w ++ " is not bound in \x7b\x7d"⟩) := by
    rw [checkSteps_eq_plain (wellRecorded_loneVariable hw) .default]
    show (plainSurvey _ _ (9999 + 1) _ _ _ >>= fun _ => plainRules _ (9999 + 1) _ _ _ >>= _) = _
    rw [plainSurvey_node (isNode_loneVariable w) (wellStated_loneVariable hw) List.not_mem_nil,
      plainRules_succ, checkAt_loneVariable hw]
    rfl
  rw [check, hsteps]

end

/-- For a variable called `x`, the name is what the message writes in full. -/
theorem message_brief_loneVariable :
    (loneVariable "x").check .default 8 ⟨4, 3, 2⟩ = .ok (.reject
      ⟨.unboundVariable, [], some .assm, "x is not bound in \x7b\x7d"⟩) ∧
    ∃ before full after, "x is not bound in \x7b\x7d" = before ++ full ++ after ∧
      (loneVariable "x").InFull .default 8 ⟨4, 3, 2⟩ [] full ∧
      before.length + after.length ≤ 773 := by
  have h := check_loneVariable (w := "x") (by decide)
  exact ⟨h, message_brief h⟩

/-- A name of a thousand letters makes a message of 1019. -/
theorem message_longName :
    ∃ r, (loneVariable (String.ofList (List.replicate 1000 'x'))).check .default 8 ⟨4, 3, 2⟩ =
      .ok (.reject r) ∧ r.message.length = 1019 := by
  have hlen : (String.ofList (List.replicate 1000 'x')).length = 1000 := by
    rw [String.length_ofList, List.length_replicate]
  have hw : String.ofList (List.replicate 1000 'x') ≠ "" := by
    intro h
    rw [h] at hlen
    cases hlen
  refine ⟨_, check_loneVariable hw, ?_⟩
  rw [String.length_append, hlen]
  rfl

end Graph

end NaturalDeduction
