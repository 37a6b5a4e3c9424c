import NaturalDeduction.Graph.Embed
import NaturalDeduction.Proofs.Names
import NaturalDeduction.Proofs.Phases

/-!
# Verdicts on one line

A verdict quotes names, and it is printed on a line of its own: it has no line break unless a name has
one.

* `OneLine`             a text without a line break;
* `Text.oneLine_quote`  quoted text has none, whatever is quoted;
* `Graph.Unbroken`      no text in the graph has one;
* `Tidy`                what is printed, if it can be printed, has none;
* `oneLine_of_check`    nor has the verdict on a derivation in such a graph;
* `unbroken_addDerivation`, `unbroken_addSequent`   what is read makes such a graph.
-/

namespace NaturalDeduction

/-- The character ends no line. -/
def Inline (c : Char) : Prop := c ≠ '\n' ∧ c ≠ '\r'

instance (c : Char) : Decidable (Inline c) := inferInstanceAs (Decidable (_ ∧ _))

/-- No line ends inside the text. -/
def OneLine (s : String) : Prop := ∀ c ∈ s.toList, Inline c

instance (s : String) : Decidable (OneLine s) := List.decidableBAll Inline s.toList

theorem OneLine.append {s t : String} (hs : OneLine s) (ht : OneLine t) : OneLine (s ++ t) := by
  intro c hc
  rw [String.toList_append, List.mem_append] at hc
  exact hc.elim (hs c) (ht c)

theorem oneLine_ofList {cs : List Char} (h : ∀ c ∈ cs, Inline c) : OneLine (String.ofList cs) := by
  intro c hc
  rw [String.toList_ofList] at hc
  exact h c hc

theorem oneLine_intercalate {sep : String} (hsep : OneLine sep) {ls : List String}
    (h : ∀ s ∈ ls, OneLine s) : OneLine (sep.intercalate ls) := by
  induction ls with
  | nil => exact oneLine_ofList nofun
  | cons s ls ih =>
    obtain ⟨hs, hls⟩ := List.forall_mem_cons.mp h
    cases ls with
    | nil =>
      rw [String.intercalate_singleton]
      exact hs
    | cons t ls =>
      rw [String.intercalate_cons_cons]
      exact (hs.append hsep).append (ih hls)

theorem oneLine_commas {ls : List String} (h : ∀ s ∈ ls, OneLine s) : OneLine (commas ls) :=
  oneLine_intercalate (by decide) h

theorem oneLine_cutTo (limit : Int) {s : String} (h : OneLine s) : OneLine (cutTo limit s) :=
  oneLine_ofList fun c hc => h c (List.mem_of_mem_take hc)

theorem oneLine_cut (limit : Option Int) {s : String} (h : OneLine s) : OneLine (cut limit s) := by
  unfold cut
  split
  case h_1 => exact h
  case h_2 n =>
    split
    case isTrue => exact (oneLine_cutTo n h).append (by decide)
    case isFalse => exact h

theorem oneLine_natRepr (n : Nat) : OneLine n.repr := by
  rw [Nat.repr_eq_ofList_toDigits]
  refine oneLine_ofList fun c hc => ?_
  have hdigit := Nat.isDigit_of_mem_toDigits (by decide) (by decide) hc
  have hne : ∀ d : Char, d.isDigit = false → c ≠ d := by
    rintro d hd rfl
    rw [hd] at hdigit
    cases hdigit
  exact ⟨hne _ (by decide), hne _ (by decide)⟩

theorem oneLine_intRepr (n : Int) : OneLine n.repr := by
  cases n with
  | ofNat n => exact oneLine_natRepr n
  | negSucc n => exact .append (by decide) (oneLine_natRepr (n + 1))

/-! ## quoted values -/

namespace Text

theorem inline_codeEscape (n : Nat) : ∀ c ∈ codeEscape n, Inline c := by
  have hdigit : ∀ k < 16, Inline (Nat.digitChar k) := by decide
  have hhex : ∀ width m, ∀ c ∈ hex width m, Inline c := by
    intro width m c hc
    obtain ⟨k, -, rfl⟩ := List.mem_map.mp hc
    exact hdigit _ (Nat.mod_lt _ (by decide))
  have hstart : ∀ {c}, Inline c → ∀ width, ∀ d ∈ '\\' :: c :: hex width n, Inline d :=
    fun hc width => List.forall_mem_cons.mpr ⟨by decide, List.forall_mem_cons.mpr ⟨hc, hhex width n⟩⟩
  unfold codeEscape
  split
  case isTrue => exact hstart (by decide) 2
  case isFalse =>
    split
    case isTrue => exact hstart (by decide) 4
    case isFalse => exact hstart (by decide) 8

theorem inline_quoteMark (cs : List Char) : Inline (quoteMark cs) := by
  unfold quoteMark
  split
  case isTrue => decide
  case isFalse => decide

theorem inline_shortEscape {mark c : Char} {e : List Char} (hmark : Inline mark)
    (h : shortEscape? mark c = some e) : ∀ d ∈ e, Inline d := by
  have hpair : ∀ {d}, Inline d → ∀ x ∈ ['\\', d], Inline x :=
    fun hd => List.forall_mem_cons.mpr ⟨by decide, List.forall_mem_singleton.mpr hd⟩
  unfold shortEscape? at h
  split at h
  case isTrue hc =>
    obtain rfl := Option.some.inj h
    obtain hc | hc := Bool.or_eq_true_iff.mp hc
    · rw [beq_iff_eq.mp hc]
      exact hpair hmark
    · rw [beq_iff_eq.mp hc]
      exact hpair (by decide)
  case isFalse =>
    have hletter : e = ['\\', 'n'] ∨ e = ['\\', 'r'] ∨ e = ['\\', 't'] := by grind
    obtain rfl | rfl | rfl := hletter
    · exact hpair (by decide)
    · exact hpair (by decide)
    · exact hpair (by decide)

/-- A line break is escaped by a letter. -/
theorem inline_of_shortEscape {mark c : Char} (h : shortEscape? mark c = none) : Inline c := by
  unfold shortEscape? at h
  constructor <;>
  · rintro rfl
    grind

/-- A character is escaped by a letter, by itself or by its code, and never by a line break. -/
theorem inline_escaped {mark c : Char} (hmark : Inline mark) (p : Bool) (n : Nat) :
    ∀ d ∈ (match shortEscape? mark c with
      | some e => e
      | none => if p then [c] else codeEscape n), Inline d := by
  split
  case h_1 e he => exact inline_shortEscape hmark he
  case h_2 he =>
    split
    case isTrue => exact List.forall_mem_singleton.mpr (inline_of_shortEscape he)
    case isFalse => exact inline_codeEscape n

theorem oneLine_quote (s : String) : OneLine (quote s) := by
  have hmark := inline_quoteMark s.toList
  refine oneLine_ofList (List.forall_mem_append.mpr ⟨List.forall_mem_cons.mpr ⟨hmark, ?_⟩,
    List.forall_mem_singleton.mpr hmark⟩)
  intro d hd
  obtain ⟨c, -, hd⟩ := List.mem_flatMap.mp hd
  exact inline_escaped hmark _ _ d hd

theorem oneLine_quoteBytes (bs : List UInt8) : OneLine (quoteBytes bs) := by
  have hmark := inline_quoteMark (bs.map fun b => Char.ofNat b.toNat)
  refine oneLine_ofList (List.forall_mem_cons.mpr ⟨by decide, List.forall_mem_append.mpr
    ⟨List.forall_mem_cons.mpr ⟨hmark, ?_⟩, List.forall_mem_singleton.mpr hmark⟩⟩)
  intro d hd
  obtain ⟨b, -, hd⟩ := List.mem_flatMap.mp hd
  exact inline_escaped hmark _ _ d hd

end Text

theorem oneLine_dictText {es : List (String × String)}
    (h : ∀ e ∈ es, OneLine e.1 ∧ OneLine e.2) : OneLine (dictText es) := by
  refine .append (.append (by decide) (oneLine_commas fun s hs => ?_)) (by decide)
  obtain ⟨e, he, rfl⟩ := List.mem_map.mp hs
  exact ((h e he).1.append (by decide)).append (h e he).2

theorem oneLine_tupleText {ls : List String} (h : ∀ s ∈ ls, OneLine s) : OneLine (tupleText ls) := by
  unfold tupleText
  split
  case h_1 s => exact .append (.append (by decide) (h s (List.mem_singleton_self s))) (by decide)
  case h_2 => exact .append (.append (by decide) (oneLine_commas h)) (by decide)

theorem oneLine_tag (R : Rule) : OneLine R.tag := by cases R <;> decide

theorem oneLine_kind (k : Kind) : OneLine k.name := by cases k <;> decide

theorem oneLine_label (f : Field) : OneLine f.label := by cases f <;> decide

namespace Graph
variable {g : Graph}

/-- Values are quoted on one line, whatever they hold. -/
theorem oneLine_quoteWithin {n : Nat} : ∀ {inside : RefSet} {r : Ref},
    OneLine (g.quoteWithin n inside r) := by
  have hellipsis : ∀ k : Kind, OneLine k.ellipsis := by
    intro k
    cases k <;> decide
  induction n with
  | zero => exact fun {_ r} => hellipsis (g.get r).kind
  | succ n ih =>
    intro inside r
    have hitems : ∀ xs : List Ref, ∀ s ∈ xs.map (g.quoteWithin n (inside.insert r)), OneLine s := by
      intro xs s hs
      obtain ⟨x, -, rfl⟩ := List.mem_map.mp hs
      exact ih
    have hentries : ∀ es : List (Ref × Ref), OneLine (dictText (es.map fun e =>
        (g.quoteWithin n (inside.insert r) e.1, g.quoteWithin n (inside.insert r) e.2))) := by
      refine fun es => oneLine_dictText fun e he => ?_
      obtain ⟨e, -, rfl⟩ := List.mem_map.mp he
      exact ⟨ih, ih⟩
    rw [quoteWithin]
    split
    case isTrue => exact hellipsis _
    case isFalse =>
      cases g.get r with
      | null => exact (by decide : OneLine "None")
      | absent => exact (by decide : OneLine "ABSENT")
      | bool b =>
        show OneLine (if b then "True" else "False")
        cases b <;> decide
      | int n => exact oneLine_intRepr n
      | text s => exact Text.oneLine_quote s
      | bytes bs => exact Text.oneLine_quoteBytes bs
      | rule R =>
        have hname : OneLine R.memberName := by cases R <;> decide
        have hquote := Text.oneLine_quote R.tag
        exact .append (.append (.append (.append (by decide) hname) (by decide)) hquote) (by decide)
      | tuple xs => exact oneLine_tupleText (hitems xs)
      | list xs => exact .append (.append (by decide) (oneLine_commas (hitems xs))) (by decide)
      | dict es => exact hentries es
      | env bs => exact .append (.append (by decide) (hentries bs)) (by decide)
      | _ =>
        refine .append (.append (.append (oneLine_kind _) (by decide))
          (oneLine_commas fun s hs => ?_)) (by decide)
        obtain ⟨f, -, rfl⟩ := List.mem_map.mp hs
        exact ((oneLine_label f.1).append (by decide)).append ih

theorem oneLine_quote (r : Ref) : OneLine (g.quote r) := oneLine_quoteWithin

end Graph

/-! ## printed values -/

/-- If there is a text, no line ends inside it. -/
def Tidy (x : Except Failure String) : Prop := ∀ s, x = .ok s → OneLine s

theorem tidy_ok {s : String} (h : OneLine s) : Tidy (.ok s) := by
  intro t ht
  rw [← Except.ok.inj ht]
  exact h

theorem tidy_error {f : Failure} : Tidy (.error f) := nofun

theorem Tidy.bind {x : Except Failure String} {k : String → Except Failure String} (hx : Tidy x)
    (hk : ∀ s, OneLine s → Tidy (k s)) : Tidy (x >>= k) := by
  intro t ht
  obtain ⟨s, hs, ht⟩ := bind_eq_ok.mp ht
  exact hk s (hx s hs) t ht

theorem forall_of_mapM_ok {ε α β : Type} {f : α → Except ε β} {P : β → Prop} {l : List α}
    {bs : List β} (h : ∀ a ∈ l, ∀ b, f a = .ok b → P b) (hbs : l.mapM f = .ok bs) :
    ∀ b ∈ bs, P b := by
  induction l generalizing bs with
  | nil =>
    obtain rfl := Except.ok.inj hbs
    exact nofun
  | cons a l ih =>
    rw [List.mapM_cons] at hbs
    obtain ⟨b, hb, hbs⟩ := bind_eq_ok.mp hbs
    obtain ⟨cs, hcs, hbs⟩ := bind_eq_ok.mp hbs
    obtain rfl := Except.ok.inj hbs
    obtain ⟨ha, hl⟩ := List.forall_mem_cons.mp h
    exact List.forall_mem_cons.mpr ⟨ha b hb, ih hl hcs⟩

/-- Printing pieces without a line break makes a text without one, cut or not. -/
theorem tidy_finish {limit : Option Int} {ls : List String} (h : ∀ s ∈ ls, OneLine s) :
    ∀ {o : Output}, OneLine o.text → Tidy (Graph.finish (ls.foldlM (Output.put limit) o)) := by
  induction ls with
  | nil => exact fun ho => tidy_ok ho
  | cons s ls ih =>
    intro o ho
    obtain ⟨hs, hls⟩ := List.forall_mem_cons.mp h
    have hos : OneLine (o.text ++ s) := ho.append hs
    rw [List.foldlM_cons]
    cases limit with
    | none => exact ih hls hos
    | some n =>
      by_cases hn : ((o.size + s.length : Nat) : Int) > n
      · have hput : o.put (some n) s = .error (.cut (cutTo n (o.text ++ s) ++ ellipsis)) := if_pos hn
        rw [hput]
        exact tidy_ok ((oneLine_cutTo n hos).append (by decide))
      · have hput : o.put (some n) s = .ok ⟨o.text ++ s, o.size + s.length⟩ := if_neg hn
        rw [hput]
        exact ih hls hos

namespace Graph
variable {g : Graph}

/-- No text of the graph has a line break. -/
def Unbroken (g : Graph) : Prop := ∀ r s, g.text? r = some s → OneLine s

section
variable (hg : g.Unbroken)
include hg

theorem tidy_str {x : Ref} (hx : g.isName x = true) : Tidy (g.str x) := by
  obtain ⟨n, -, hn⟩ := exists_name hx
  rw [str_of_text? hn]
  exact tidy_ok (hg x _ hn)

theorem oneLine_nameText (r n : Ref) : OneLine (g.nameText r n) := by
  unfold nameText
  split
  case h_1 s hs => exact hg n s hs
  case h_2 => exact oneLine_quote r

theorem oneLine_of_pieces {r : Ref} (h : g.Loose r) {ps : List Piece}
    (hps : g.pieces g.str r = .ok ps) : ∀ s, .lit s ∈ ps → OneLine s := by
  unfold pieces at hps
  split at hps
  case h_1 s hc =>
    obtain rfl := Except.ok.inj hps
    simpa using hg r s (by rw [text?, hc]; rfl)
  case h_2 R hc =>
    obtain rfl := Except.ok.inj hps
    simpa using oneLine_tag R
  case h_4 n _ | h_5 n _ =>
    obtain rfl := Except.ok.inj hps
    simpa using oneLine_nameText hg r n
  case h_15 x a b hc =>
    have hx : g.isName x = true := h.label (by simp [hc, Cell.labels])
    split at hps
    case h_1 => cases hps
    case h_2 s hs =>
      obtain rfl := Except.ok.inj hps
      have hs : OneLine ("(λ (" ++ s ++ " : ") :=
        .append (.append (by decide) (tidy_str hg hx s hs)) (by decide)
      simpa using ⟨hs, by decide, by decide⟩
  case h_17 =>
    obtain rfl := Except.ok.inj hps
    simpa using oneLine_quote r
  all_goals
    obtain rfl := Except.ok.inj hps
    simp +decide

theorem oneLine_leaves {r : Ref} (h : g.Loose r) : ∀ s ∈ g.leaves g.str r, OneLine s := by
  induction r using Nat.strongRecOn with
  | ind r ih =>
    obtain ⟨ps, hps⟩ := exists_pieces h
    rw [leaves_of_pieces hps]
    intro s hs
    obtain ⟨p, hp, hs⟩ := List.mem_flatMap.mp hs
    cases p with
    | lit t =>
      rw [List.mem_singleton.mp hs]
      exact oneLine_of_pieces hg h hps t hp
    | part a =>
      obtain ⟨ρ, ha⟩ := mem_parts_of_piece hps hp
      exact ih a (lt_of_part_mem_pieces hps hp) (h.part ha) s hs

variable {limit : Option Int}

theorem tidy_showValue {r : Ref} (h : g.Loose r) : Tidy (g.showValue limit r) := by
  rw [showValue, showWith_eq_finish h.writable]
  exact tidy_finish (oneLine_leaves hg h) (by decide)

theorem tidy_showPieces {ps : List Piece} (h : ∀ s, .part s ∈ ps → g.Loose s)
    (hlit : ∀ s, .lit s ∈ ps → OneLine s) : Tidy (g.showPieces limit ps) := by
  rw [showPieces_eq_finish limit h]
  refine tidy_finish (fun s hs => ?_) (by decide)
  obtain ⟨p, hp, hs⟩ := List.mem_flatMap.mp hs
  cases p with
  | lit t =>
    rw [List.mem_singleton.mp hs]
    exact hlit t hp
  | part a => exact oneLine_leaves hg (h a hp) s hs

theorem tidy_showBindings {bs : List (Ref × Ref)} (h : g.Bindings bs) :
    Tidy (g.showBindings limit bs) := by
  have hnames : ∀ e ∈ bs, ∃ w, g.text? e.1 = some w := by
    intro e he
    obtain ⟨n, -, hn⟩ := exists_name (h.names e he)
    exact ⟨n.word, hn⟩
  obtain ⟨es, hes, hperm⟩ := sortByName_of_texts hnames
  rw [showBindings, showBindingsWith, hes, ok_bind]
  intro s hs
  obtain ⟨parts, hparts, hs⟩ := bind_eq_ok.mp hs
  obtain rfl := Except.ok.inj hs
  have hall : ∀ s ∈ parts, OneLine s := by
    refine forall_of_mapM_ok (fun e he => ?_) hparts
    have he : e ∈ bs := hperm.mem_iff.mp he
    refine Tidy.bind (tidy_str hg (h.names e he)) fun name hname => ?_
    refine Tidy.bind (tidy_showValue hg (h.values e he)) fun ty hty => ?_
    exact tidy_ok ((hname.append (by decide)).append hty)
  exact .append (.append (by decide) (oneLine_cut limit (oneLine_commas hall))) (by decide)

theorem tidy_showEnv {e : Ref} (h : g.Loose e) : Tidy (g.showEnv limit e) := by
  rw [showEnv, showEnvWith]
  split
  case h_1 bs hbs => exact tidy_showBindings hg (h.bindings hbs)
  case h_2 => exact tidy_error

theorem tidy_showSequent {c : Ref} {j : Judgement} (hc : g.judgement? c = some j) (h : g.Apt j) :
    Tidy (g.showSequent limit c) := by
  rw [showSequent, showSequentWith]
  split
  case h_2 => exact tidy_error
  case h_1 e t a hget =>
    obtain rfl : Judgement.mk e t a = j := by
      rw [judgement?, hget] at hc
      exact Option.some.inj hc
    refine Tidy.bind (tidy_showEnv hg h.env) fun env henv => ?_
    refine Tidy.bind (tidy_showValue hg h.term) fun term hterm => ?_
    refine Tidy.bind (tidy_showValue hg h.ty) fun ty hty => ?_
    exact tidy_ok ((((henv.append (by decide)).append hterm).append (by decide)).append hty)

theorem tidy_showJudgement {j : Judgement} (h : g.Apt j) : Tidy (g.showJudgement j) := by
  refine Tidy.bind (tidy_showEnv hg h.env) fun env henv => ?_
  refine Tidy.bind (tidy_showValue hg h.term) fun term hterm => ?_
  refine Tidy.bind (tidy_showValue hg h.ty) fun ty hty => ?_
  exact tidy_ok ((((henv.append (by decide)).append hterm).append (by decide)).append hty)

/-! ## messages -/

theorem tidy_demandText {d : Demand} (h : d.Apt g) : Tidy (d.text g) := by
  have henv : Tidy (d.env.text g) := by
    have he := h.env
    unfold EnvForm.text
    cases hd : d.env with
    | exactly e =>
      rw [hd] at he
      exact tidy_showEnv hg he.1
    | bindings bs =>
      rw [hd] at he
      exact tidy_showBindings hg he
  have hty : Tidy (g.showPieces shown d.ty.pieces) := by
    refine tidy_showPieces hg (fun s hs => h.ty.loose hs) ?_
    cases d.ty <;> simp +decide [TypeForm.pieces]
  refine henv.bind fun env henv => ?_
  refine Tidy.bind (tidy_showValue hg h.term) fun term hterm => ?_
  refine hty.bind fun ty hty => ?_
  exact tidy_ok ((((henv.append (by decide)).append hterm).append (by decide)).append hty)

theorem tidy_expectationText {e : Expectation} (h : e.Apt g) : Tidy (e.text g) := by
  cases e with
  | demand d => exact tidy_demandText hg h
  | scrutinee => exact tidy_ok (by decide)
  | component s a =>
    refine Tidy.bind (tidy_showValue hg h) fun ty hty => tidy_ok (.append ?_ hty)
    cases s <;> decide

theorem tidy_showPremise {ps : List Ref} {i : Nat}
    (h : ∃ p j, ps[i]? = some p ∧ g.conclusion? p = some j ∧ g.Apt j) :
    Tidy (g.showPremise ps i) := by
  obtain ⟨p, j, hp, hj, hapt⟩ := h
  rw [showPremise, hp]
  unfold conclusion? at hj
  cases hc : g.get p with
  | derivation R c q =>
    rw [hc] at hj
    simp only [hc]
    exact tidy_showSequent hg hj hapt
  | _ =>
    rw [hc] at hj
    cases hj

theorem tidy_message (R : Rule) {ps : List Ref} {f : RuleFault} (h : f.Apt g ps) :
    Tidy (f.message g R ps) := by
  have htag := oneLine_tag R
  cases f with
  | term t =>
    have hshape : OneLine R.termShape := by cases R <;> decide
    refine Tidy.bind (tidy_showValue hg h) fun s hs => tidy_ok ?_
    exact (((htag.append (by decide)).append hshape).append (by decide)).append hs
  | type a =>
    have hshape : OneLine R.typeShape := by cases R <;> decide
    refine Tidy.bind (tidy_showValue hg h) fun s hs => tidy_ok ?_
    exact (((htag.append (by decide)).append hshape).append (by decide)).append hs
  | arity n =>
    have harity := oneLine_natRepr R.arity
    exact tidy_ok ((((htag.append (by decide)).append harity).append (by decide)).append
      (oneLine_natRepr n))
  | unbound x e =>
    obtain ⟨hx, he, -⟩ := h
    refine Tidy.bind (tidy_str hg hx) fun s hs => ?_
    refine Tidy.bind (tidy_showEnv hg he) fun t ht => ?_
    exact tidy_ok ((hs.append (by decide)).append ht)
  | assumption x a b =>
    obtain ⟨hx, ha, hb⟩ := h
    refine Tidy.bind (tidy_str hg hx) fun s hs => ?_
    refine Tidy.bind (tidy_showValue hg ha) fun t ht => ?_
    refine Tidy.bind (tidy_showValue hg hb) fun u hu => ?_
    exact tidy_ok ((((hs.append (by decide)).append ht).append (by decide)).append hu)
  | parameter x a b =>
    obtain ⟨hx, ha, hb⟩ := h
    refine Tidy.bind (tidy_showValue hg ha) fun t ht => ?_
    refine Tidy.bind (tidy_str hg hx) fun s hs => ?_
    refine Tidy.bind (tidy_showValue hg hb) fun u hu => ?_
    exact tidy_ok ((((OneLine.append (by decide) hs).append (by decide)).append ht).append
      (by decide) |>.append hu)
  | premise i e =>
    refine Tidy.bind (tidy_showPremise hg h.1) fun s hs => ?_
    refine Tidy.bind (tidy_expectationText hg h.2) fun t ht => ?_
    exact tidy_ok (((((OneLine.append (by decide) (oneLine_natRepr i)).append (by decide)).append
      hs).append (by decide)).append ht)

theorem oneLine_of_reject {R : Rule} {ps : List Ref} {path : Location} {f : RuleFault} {r : Reject}
    (h : f.Apt g ps) (hr : f.reject g R ps path = .ok r) : OneLine r.message := by
  obtain ⟨m, hm, hr⟩ := bind_eq_ok.mp hr
  have htext : OneLine m := tidy_message hg R h m hm
  split at hr
  case h_1 =>
    split at hr
    case h_1 => cases hr
    case h_2 =>
      obtain rfl := Except.ok.inj hr
      exact htext
  case h_2 =>
    obtain rfl := Except.ok.inj hr
    exact htext

/-! ## verdicts -/

theorem oneLine_of_runsTo {tree : Ref} {target : Judgement} {limits : Limits} {memo : Memo}
    {s : Survey} {r : Reject} (hm : g.checkTarget target = .ok memo)
    (hs : g.survey limits.written limits.maxDepth [] {} tree ⟨{}, memo⟩ = .ok s)
    (h : g.RunsTo [] tree target (.error (.reject r))) : OneLine r.message := by
  cases h with
  | fails hx hj he _ =>
    obtain ⟨-, hps, hgoal⟩ := apt_of_goalAt? hm hs hx hj
    obtain ⟨R, f, -, hf, hr⟩ := fault_of_checkAt he
    have hsafe := checkNode_safe hps hgoal R
    rw [hf] at hsafe
    exact oneLine_of_reject hg hsafe hr

theorem oneLine_of_checkConclusion {tree : Ref} {target j : Judgement} {r : Reject}
    (hj : g.conclusion? tree = some j) (hapt : g.Apt j) (ht : g.Apt target)
    (h : g.checkConclusion tree target = .error (.reject r)) : OneLine r.message := by
  have hmessage : Tidy (do
      return "tree concludes " ++ (← g.showJudgement j) ++ ", target is " ++
        (← g.showJudgement target)) := by
    refine Tidy.bind (tidy_showJudgement hg hapt) fun s hs => ?_
    refine Tidy.bind (tidy_showJudgement hg ht) fun t ht => ?_
    exact tidy_ok (((OneLine.append (by decide) hs).append (by decide)).append ht)
  unfold checkConclusion at h
  simp only [hj] at h
  split at h
  case isTrue => cases h
  case isFalse =>
    split at h
    case h_1 => cases h
    case h_2 m hm =>
      obtain rfl := Stop.reject.inj (Except.error.inj h)
      exact hmessage m hm

end

theorem oneLine_pathText {what : String} (h : OneLine what) (p : Path) : OneLine (pathText what p) := by
  have hlabels : OneLine (".".intercalate ((p.take 12).map Field.label)) := by
    refine oneLine_intercalate (by decide) fun s hs => ?_
    obtain ⟨f, -, rfl⟩ := List.mem_map.mp hs
    exact oneLine_label f
  have hcut : OneLine (if p.length > 12 then ".".intercalate ((p.take 12).map Field.label) ++ ".…"
      else ".".intercalate ((p.take 12).map Field.label)) := by
    split
    case isTrue => exact hlabels.append (by decide)
    case isFalse => exact hlabels
  have hchoice : ∀ labels, OneLine labels → OneLine (if labels == "" then what else labels) := by
    intro labels hlabels
    split
    case isTrue => exact h
    case isFalse => exact hlabels
  exact hchoice _ hcut

theorem oneLine_of_checkTarget {target : Judgement} {r : Reject}
    (h : g.checkTarget target = .error r) : OneLine r.message := by
  unfold checkTarget at h
  split at h
  case h_1 =>
    obtain rfl := Except.error.inj h
    exact (by decide : OneLine "environment is malformed")
  case h_2 =>
    split at h
    case h_1 p _ _ =>
      obtain rfl := Except.error.inj h
      exact .append (by decide) (oneLine_pathText (by decide) p)
    case h_2 =>
      split at h
      case h_1 p _ _ =>
        obtain rfl := Except.error.inj h
        exact .append (by decide) (oneLine_pathText (by decide) p)
      case h_2 => cases h

theorem ShapeMessage.oneLine {written m : String} (h : g.ShapeMessage written m)
    (hw : OneLine written) : OneLine m := by
  cases h with
  | kind k => exact .append (by decide) (oneLine_kind k)
  | loop => decide
  | deep => exact .append (by decide) hw
  | rule R => exact .append (by decide) (oneLine_quote R)
  | premises => decide

theorem oneLine_text {r : Reject} (h : OneLine r.message) : OneLine r.text := by
  have hlocation : OneLine (Location.text r.location) := by
    unfold Location.text
    split
    case isTrue => decide
    case isFalse =>
      refine oneLine_intercalate (by decide) fun s hs => ?_
      obtain ⟨n, -, rfl⟩ := List.mem_map.mp hs
      exact oneLine_intRepr n
  have hreason : OneLine r.reason.tag := by cases r.reason <;> decide
  have hhead : OneLine ("Reject: " ++ r.reason.tag ++ " at " ++ Location.text r.location) :=
    ((OneLine.append (by decide) hreason).append (by decide)).append hlocation
  unfold Reject.text
  simp only
  split
  case isTrue => exact hhead
  case isFalse => exact (hhead.append (by decide)).append h

/-- **A verdict is one line**, whatever the derivation is, unless a text in the graph has a line
break. -/
theorem oneLine_of_check {limits : Limits} {tree : Ref} {target : Judgement} {v : Verdict}
    (hg : g.Unbroken) (hw : OneLine limits.written) (h : g.check limits tree target = .ok v) :
    OneLine v.text := by
  cases v with
  | accept => exact (by decide : OneLine "Accept")
  | reject r =>
    refine oneLine_text ?_
    obtain hm | ⟨memo, hm, hs | ⟨s, hs, hrules | ⟨-, hend⟩⟩⟩ := reject_cases h
    · exact oneLine_of_checkTarget hm
    · obtain ⟨l, m, rfl, hmsg⟩ | ⟨l, R, rfl⟩ := reject_of_survey hs
      · exact hmsg.oneLine hw
      · exact (by decide : OneLine "recorded conclusion is not a well-formed sequent")
    · exact oneLine_of_runsTo hg hm hs (hrules ▸ runsTo_of_survey hm hs)
    · obtain ⟨R, j, -, hj, hapt⟩ := apt_of_survey hm hs .refl
      exact oneLine_of_checkConclusion hg hj hapt (apt_of_looseIn (looseIn_of_survey hm hs).2.1) hend

/-! ## what is read -/

theorem oneLine_of_isPlain {x : String} (h : Source.isPlain x = true) : OneLine x := by
  obtain ⟨c, w, hcw, hc, hw⟩ := Source.exists_of_isWord (Bool.and_eq_true_iff.mp h).1
  have inline : ∀ {d : Char}, Source.isWordChar d = true → Inline d := by
    intro d hd
    constructor <;>
    · rintro rfl
      exact absurd hd (by decide)
  have hstart : Source.isWordChar c = true := by rw [Source.isWordChar, hc]; rfl
  intro d hd
  rw [hcw] at hd
  obtain rfl | hd := List.mem_cons.mp hd
  · exact inline hstart
  · exact inline (hw d hd)

theorem unbroken_empty : Graph.empty.Unbroken := by
  intro r s hs
  rw [text?_eq_textAt] at hs
  cases hs

theorem Unbroken.push (hg : g.Unbroken) {c : Cell} (h : g.Admits c)
    (hc : ∀ s, c.text? = some s → OneLine s) : (g.push c h).Unbroken := by
  intro r s hs
  have hs : (g.cells.push c)[r]?.bind Cell.text? = some s := by
    rw [text?_eq_textAt] at hs
    exact hs
  rw [Array.getElem?_push] at hs
  split at hs
  case isTrue => exact hc s hs
  case isFalse =>
    refine hg r s ?_
    rw [text?_eq_textAt]
    exact hs

theorem Unbroken.add (hg : g.Unbroken) {c : Cell} (hc : ∀ s, c.text? = some s → OneLine s) :
    (g.add c).1.Unbroken := by
  unfold Graph.add
  split
  case isTrue h => exact hg.push h hc
  case isFalse => exact hg.push g.admits_null nofun

/-- A text is added, with no line break in it. -/
theorem Unbroken.addText (hg : g.Unbroken) {x : String} (hx : OneLine x) :
    (g.add (.text x)).1.Unbroken := by
  refine hg.add fun s hs => ?_
  rw [← Option.some.inj hs]
  exact hx

theorem unbroken_addTy {A : Ty} (hA : ∀ x ∈ A.names, OneLine x) :
    ∀ {g : Graph}, g.Unbroken → (addTy A g).1.Unbroken := by
  induction A with
  | bottom => exact fun hg => hg.add nofun
  | base x => exact fun hg => (hg.addText (hA x List.mem_cons_self)).add nofun
  | arrow A B ihA ihB | product A B ihA ihB | sum A B ihA ihB =>
    obtain ⟨hA, hB⟩ := List.forall_mem_append.mp hA
    exact fun hg => (ihB hB (ihA hA hg)).add nofun

theorem unbroken_addTerm {t : Term} (ht : ∀ x ∈ t.names, OneLine x) :
    ∀ {g : Graph}, g.Unbroken → (addTerm t g).1.Unbroken := by
  induction t with
  | var x => exact fun hg => (hg.addText (ht x List.mem_cons_self)).add nofun
  | pair t u iht ihu =>
    obtain ⟨ht, hu⟩ := List.forall_mem_append.mp ht
    exact fun hg => (ihu hu (iht ht hg)).add nofun
  | inl t iht | inr t iht | fst t iht | snd t iht | abort t iht =>
    exact fun hg => (iht ht hg).add nofun
  | case t u v iht ihu ihv =>
    obtain ⟨htu, hv⟩ := List.forall_mem_append.mp ht
    obtain ⟨ht, hu⟩ := List.forall_mem_append.mp htu
    exact fun hg => (ihv hv (ihu hu (iht ht hg))).add nofun
  | lambda x A t iht =>
    obtain ⟨hx, hAt⟩ := List.forall_mem_cons.mp ht
    obtain ⟨hA, ht⟩ := List.forall_mem_append.mp hAt
    exact fun hg => (iht ht (unbroken_addTy hA (hg.addText hx))).add nofun

theorem unbroken_addBindings {bs : List (String × Ty)} (hbs : ∀ x ∈ bindingNames bs, OneLine x) :
    ∀ {g : Graph}, g.Unbroken → (addBindings bs g).1.Unbroken := by
  induction bs with
  | nil => exact fun hg => hg
  | cons b bs ih =>
    obtain ⟨hb, hbs⟩ := List.forall_mem_append.mp hbs
    obtain ⟨hx, hA⟩ := List.forall_mem_cons.mp hb
    exact fun hg => ih hbs (unbroken_addTy hA (hg.addText hx))

theorem unbroken_addSequent {q : Sequent} (hq : ∀ x ∈ q.names, OneLine x) (hg : g.Unbroken) :
    (addSequent q g).1.Unbroken := by
  obtain ⟨hΓt, hA⟩ := List.forall_mem_append.mp hq
  obtain ⟨hΓ, ht⟩ := List.forall_mem_append.mp hΓt
  have hctx : (addContext q.ctx g).1.Unbroken := (unbroken_addBindings hΓ hg).add nofun
  exact (unbroken_addTy hA (unbroken_addTerm ht hctx)).add nofun

mutual

theorem unbroken_addDerivation : (d : Derivation) → (∀ x ∈ d.names, OneLine x) →
    ∀ {g : Graph}, g.Unbroken → (addDerivation d g).1.Unbroken
  | .node R q ds, h, g, hg => by
    obtain ⟨hq, hds⟩ := List.forall_mem_append.mp h
    have hR : (g.add (.rule R)).1.Unbroken := by
      refine hg.add fun s hs => ?_
      rw [← Option.some.inj hs]
      exact oneLine_tag R
    have hpremises := unbroken_addDerivations ds hds (unbroken_addSequent hq hR)
    exact (hpremises.add (c := .tuple _) nofun).add nofun

theorem unbroken_addDerivations : (ds : List Derivation) →
    (∀ x ∈ Derivation.allNames ds, OneLine x) →
    ∀ {g : Graph}, g.Unbroken → (addDerivations ds g).1.Unbroken
  | [], _, _, hg => hg
  | d :: ds, h, _, hg => by
    obtain ⟨hd, hds⟩ := List.forall_mem_append.mp h
    exact unbroken_addDerivations ds hds (unbroken_addDerivation d hd hg)

end

end Graph

end NaturalDeduction
