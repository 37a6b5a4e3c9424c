import NaturalDeduction.Proofs.Printing
import NaturalDeduction.Proofs.Reading

/-!
# Printed values are read back

* `isPlain`            a name that is written as a word and is not reserved;
* `Graph.PlainTy`, …, `Graph.PlainDerivation`   what a value of a graph is, if its names are plain. An
                       environment is a context with the same bindings, in any order;
* `Writes n v cs`      the text `cs` writes `v`, before any text that does not go on with its last word;
* `Graph.PlainTy.prints`, …, `Graph.PlainDerivation.show`   what is printed of a value writes it;
* `Graph.parse_show`   what is printed of a value is read as that value.
-/

namespace NaturalDeduction

open Source

theorem exists_of_forall₂ {α β : Type} {R : α → β → Prop} {l : List α} {l' : List β}
    (h : List.Forall₂ R l l') : ∀ a ∈ l, ∃ b, R a b := by
  induction h with
  | nil => exact fun a ha => absurd ha List.not_mem_nil
  | @cons a b l l' hab _ ih =>
    intro a' ha'
    obtain rfl | ha' := List.mem_cons.mp ha'
    · exact ⟨b, hab⟩
    · exact ih a' ha'

namespace Source

/-! ## texts that write a value -/

/-- The characters of a word. -/
def isWord (x : String) : Bool :=
  match x.toList with
  | [] => false
  | c :: w => isWordStart c && w.all isWordChar

theorem exists_of_isWord {x : String} (h : isWord x = true) :
    ∃ c w, x.toList = c :: w ∧ isWordStart c = true ∧ ∀ d ∈ w, isWordChar d = true := by
  unfold isWord at h
  split at h
  case h_1 => cases h
  case h_2 c w hcw =>
    obtain ⟨hc, hw⟩ := Bool.and_eq_true_iff.mp h
    exact ⟨c, w, hcw, hc, List.all_eq_true.mp hw⟩

/-- A text for a parse tree of `n` with value `v`. It may stand before any text that does not go on with
its last word. -/
def Writes (n : Nonterminal) (v : n.Value) (cs : List Char) : Prop :=
  ∃ t : Tree n, t.value = some v ∧
    ∀ rest ls, EndsWord rest → Layout rest ls → Layout (cs ++ rest) (t.yield ++ ls)

/-- A text for parse trees of the symbols of `rhs`. -/
def WritesAll (rhs : List Symbol) (vs : Values rhs) (cs : List Char) : Prop :=
  ∃ f : Forest rhs, f.values = some vs ∧
    ∀ rest ls, EndsWord rest → Layout rest ls → Layout (cs ++ rest) (f.yield ++ ls)

section
variable {n : Nonterminal} {k : TokenKind} {rhs : List Symbol} {vs : Values rhs} {cs cs' : List Char}

theorem endsWord_nil : EndsWord [] := nofun

theorem endsWord_cons {c : Char} (hc : isWordChar c = false) : EndsWord (c :: cs) := by
  intro d hd
  rw [← Option.some.inj hd]
  exact hc

theorem EndsWord.append (h : EndsWord cs) (h' : EndsWord cs') : EndsWord (cs ++ cs') := by
  cases cs with
  | nil => exact h'
  | cons c cs => exact h

theorem WritesAll.nil : WritesAll [] .nil [] := ⟨.nil, rfl, fun _ _ _ h => h⟩

theorem WritesAll.blank {c : Char} (hc : isSpacing c = true ∨ c = '\n') (h : WritesAll rhs vs cs) :
    WritesAll rhs vs (c :: cs) := by
  obtain ⟨f, hf, hl⟩ := h
  exact ⟨f, hf, fun rest ls hr hls => .blank hc (hl rest ls hr hls)⟩

theorem WritesAll.symbol {s : List Char} (hs : (s, k) ∈ symbols) (h : WritesAll rhs vs cs) :
    WritesAll (.terminal k :: rhs) (.cons (Lexeme.word ⟨k, String.ofList s⟩) vs) (s ++ cs) := by
  obtain ⟨f, hf, hl⟩ := h
  refine ⟨.leaf (String.ofList s) f, by rw [Forest.values, hf]; rfl, fun rest ls hr hls => ?_⟩
  rw [List.append_assoc]
  exact .symbol hs (hl rest ls hr hls)

theorem WritesAll.space (h : WritesAll rhs vs cs) : WritesAll rhs vs (' ' :: cs) :=
  .blank (.inl rfl) h

theorem WritesAll.lparen (h : WritesAll rhs vs cs) :
    WritesAll (.terminal .lparen :: rhs) (.cons "" vs) ('(' :: cs) :=
  .symbol (s := ['(']) (by decide) h

theorem WritesAll.rparen (h : WritesAll rhs vs cs) :
    WritesAll (.terminal .rparen :: rhs) (.cons "" vs) (')' :: cs) :=
  .symbol (s := [')']) (by decide) h

theorem WritesAll.colon (h : WritesAll rhs vs cs) :
    WritesAll (.terminal .colon :: rhs) (.cons "" vs) (':' :: cs) :=
  .symbol (s := [':']) (by decide) h

theorem WritesAll.word {x : String} (hx : isWord x = true) (hk : .ofWord x = k) (hcs : EndsWord cs)
    (h : WritesAll rhs vs cs) :
    WritesAll (.terminal k :: rhs) (.cons (Lexeme.word ⟨k, x⟩) vs) (x.toList ++ cs) := by
  subst hk
  obtain ⟨c, w, hcw, hc, hw⟩ := exists_of_isWord hx
  have he : String.ofList (c :: w) = x := by rw [← hcw, String.ofList_toList]
  obtain ⟨f, hf, hl⟩ := h
  refine ⟨.leaf x f, by rw [Forest.values, hf]; rfl, fun rest ls hr hls => ?_⟩
  have hlay := Layout.word hc hw (hcs.append hr) (hl rest ls hr hls)
  rw [he] at hlay
  rw [hcw, List.append_assoc]
  exact hlay

theorem WritesAll.part {v : n.Value} (hv : Writes n v cs) (hcs : EndsWord cs')
    (h : WritesAll rhs vs cs') : WritesAll (.nonterminal n :: rhs) (.cons v vs) (cs ++ cs') := by
  obtain ⟨t, ht, hlt⟩ := hv
  obtain ⟨f, hf, hlf⟩ := h
  refine ⟨.tree t f, by rw [Forest.values, ht, hf]; rfl, fun rest ls hr hls => ?_⟩
  rw [List.append_assoc, Forest.yield, List.append_assoc]
  exact hlt _ _ (hcs.append hr) (hlf rest ls hr hls)

theorem Writes.node {v : n.Value} (p : Production n rhs) (h : WritesAll rhs vs cs)
    (hv : p.act vs = some v) : Writes n v cs := by
  obtain ⟨f, hf, hl⟩ := h
  exact ⟨.node p f, by rw [Tree.value, hf, Option.bind_some, hv], hl⟩

theorem Writes.blank {v : n.Value} {c : Char} (hc : isSpacing c = true ∨ c = '\n')
    (h : Writes n v cs) : Writes n v (c :: cs) := by
  obtain ⟨t, ht, hl⟩ := h
  exact ⟨t, ht, fun rest ls hr hls => .blank hc (hl rest ls hr hls)⟩

theorem Writes.indent {v : n.Value} (h : Writes n v cs) (k : Nat) :
    Writes n v (List.replicate k ' ' ++ cs) := by
  induction k with
  | zero => exact h
  | succ k ih => exact ih.blank (.inl rfl)

theorem Writes.exists_tree {v : n.Value} {s : String} (h : Writes n v s.toList) :
    ∃ t : Tree n, Layout s.toList t.yield ∧ t.value = some v := by
  obtain ⟨t, ht, hl⟩ := h
  have hlay := hl [] [] endsWord_nil .done
  rw [List.append_nil, List.append_nil] at hlay
  exact ⟨t, hlay, ht⟩

end

/-! ## plain names -/

/-- The name is a word and is not reserved. -/
def isPlain (x : String) : Bool := isWord x && !(TokenKind.reserved.map Prod.fst).contains x

theorem ofWord_of_isPlain {x : String} (h : isPlain x = true) : TokenKind.ofWord x = .ident := by
  simp only [isPlain, Bool.and_eq_true, Bool.not_eq_true', List.contains_eq_mem,
    decide_eq_false_iff_not] at h
  have hlookup : TokenKind.reserved.lookup x = none := by
    refine List.lookup_eq_none_iff.mpr fun p hp => ?_
    exact bne_iff_ne.mpr fun e => h.2 (e ▸ List.mem_map_of_mem hp)
  rw [TokenKind.ofWord, hlookup]
  rfl

theorem WritesAll.name {rhs : List Symbol} {vs : Values rhs} {cs : List Char} {x : String}
    (hx : isPlain x = true) (hcs : EndsWord cs) (h : WritesAll rhs vs cs) :
    WritesAll (.terminal .ident :: rhs) (.cons x vs) (x.toList ++ cs) :=
  .word (Bool.and_eq_true_iff.mp hx).1 (ofWord_of_isPlain hx) hcs h

/-! ## how each construct is written -/

theorem writes_connect {o : Connective} {s ca cb : List Char} {A B : Ty} (hs : (s, o.kind) ∈ symbols)
    (ha : Writes .ty A ca) (hb : Writes .ty B cb) :
    Writes .ty (o.apply A B) ('(' :: (ca ++ ' ' :: (s ++ ' ' :: (cb ++ [')'])))) :=
  .node (.connect o) (.lparen (.part ha (endsWord_cons rfl) (.space (.symbol hs (.space
    (.part hb (endsWord_cons rfl) (.rparen .nil))))))) rfl

theorem writes_unary {o : Unary} {x : String} {ca : List Char} {t : Term} (hx : isWord x = true)
    (hk : .ofWord x = o.kind) (ha : Writes .term t ca) :
    Writes .term (o.apply t) ('(' :: (x.toList ++ ' ' :: (ca ++ [')']))) :=
  .node (.unary o) (.lparen (.word hx hk (endsWord_cons rfl) (.space (.part ha (endsWord_cons rfl)
    (.rparen .nil))))) rfl

theorem writes_lambda {x : String} {A : Ty} {t : Term} {ca cb : List Char} (hx : isPlain x = true)
    (ha : Writes .ty A ca) (hb : Writes .term t cb) :
    Writes .term (.lambda x A t) ('(' :: 'λ' :: ' ' :: '(' :: (x.toList ++ ' ' :: ':' :: ' ' ::
      (ca ++ ')' :: ' ' :: (cb ++ [')'])))) :=
  .node .lambda (.lparen (.symbol (s := ['λ']) (by decide) (.space (.lparen (.name hx
    (endsWord_cons rfl) (.space (.colon (.space (.part ha (endsWord_cons rfl) (.rparen (.space
      (.part hb (endsWord_cons rfl) (.rparen .nil))))))))))))) rfl

theorem writes_bindings {bs : List (String × Ty)} {cs : List Char} (h : Writes .bindings bs cs)
    {bs' : List (String × Ty)} {parts : List String}
    (hp : List.Forall₂ (fun b s => Writes .binding b s.toList) bs' parts) :
    Writes .bindings (bs ++ bs') (cs ++ parts.flatMap fun s => ',' :: ' ' :: s.toList) := by
  induction hp generalizing bs cs with
  | nil => simpa using h
  | @cons b s bs' parts hb _ ih =>
    have hnext : Writes .bindings (bs ++ [b]) (cs ++ ',' :: ' ' :: (s.toList ++ [])) :=
      .node .moreBindings (.part h (endsWord_cons rfl) (.symbol (s := [',']) (by decide) (.space
        (.part hb endsWord_nil .nil)))) rfl
    simpa using ih hnext

theorem toList_commas (s : String) (parts : List String) :
    (commas (s :: parts)).toList = s.toList ++ parts.flatMap fun s => ',' :: ' ' :: s.toList := by
  rw [commas, String.toList_intercalate]
  induction parts generalizing s with
  | nil => simp [List.intercalate]
  | cons s' parts ih =>
    rw [List.flatMap_cons, List.cons_append, List.cons_append, ← ih s']
    simp [List.intercalate]

/-- Bindings in braces write the context that they make. -/
theorem writes_context {Γ : Context} {parts : List String}
    (h : List.Forall₂ (fun b s => Writes .binding b s.toList) Γ.bindings parts) :
    Writes .context Γ ("\x7b" ++ commas parts ++ "\x7d").toList := by
  obtain ⟨bs, hbs⟩ := Γ
  cases h with
  | nil =>
    exact .node .noBindings (.symbol (s := ['\x7b']) (by decide) (.symbol (s := ['\x7d']) (by decide)
      .nil)) rfl
  | @cons b s bs parts hb hall =>
    have hone : Writes .bindings [b] (s.toList ++ []) :=
      .node .oneBinding (.part hb endsWord_nil .nil) rfl
    have hmore : Writes .bindings (b :: bs) (commas (s :: parts)).toList := by
      have h := writes_bindings hone hall
      rw [List.append_nil, ← toList_commas] at h
      exact h
    have hctx : Writes .context ⟨b :: bs, hbs⟩
        ('\x7b' :: ((commas (s :: parts)).toList ++ ['\x7d'])) :=
      .node .someBindings (.symbol (s := ['\x7b']) (by decide) (.part hmore (endsWord_cons rfl)
        (.symbol (s := ['\x7d']) (by decide) .nil))) (dif_pos hbs)
    simpa using hctx

theorem Writes.noPremises : Writes .premises [] [] :=
  .node .noPremises (.part (.node .empty .nil rfl) endsWord_nil .nil) rfl

end Source

/-! ## values with plain names -/

namespace Graph
variable {g : Graph} {r : Ref}

/-- The value at a reference is this type, and its names are plain. -/
inductive PlainTy (g : Graph) : Ref → Ty → Prop
  | bottom {r : Ref} (h : g.get r = .bottom) : PlainTy g r .bottom
  | base {r n : Ref} {x : String} (h : g.get r = .base n) (hn : g.text? n = some x)
      (hx : isPlain x = true) : PlainTy g r (.base x)
  | arrow {r a b : Ref} {A B : Ty} (h : g.get r = .arrow a b) (ha : PlainTy g a A)
      (hb : PlainTy g b B) : PlainTy g r (.arrow A B)
  | product {r a b : Ref} {A B : Ty} (h : g.get r = .product a b) (ha : PlainTy g a A)
      (hb : PlainTy g b B) : PlainTy g r (.product A B)
  | sum {r a b : Ref} {A B : Ty} (h : g.get r = .sum a b) (ha : PlainTy g a A)
      (hb : PlainTy g b B) : PlainTy g r (.sum A B)

/-- The characters that are printed of a value. -/
def chars (g : Graph) (r : Ref) : List Char := (g.leaves g.str r).flatMap String.toList

def pieceChars (g : Graph) : Piece → List Char
  | .lit s => s.toList
  | .part r => g.chars r

/-- What is printed of a type or a term writes `v`. -/
structure Prints (g : Graph) (n : Nonterminal) (v : n.Value) (r : Ref) : Prop where
  writable : g.Writable g.str r
  writes : Writes n v (g.chars r)

theorem Prints.show {n : Nonterminal} {v : n.Value} (h : g.Prints n v r) :
    ∃ s, g.showWith g.str none r = .ok s ∧ Writes n v s.toList := by
  refine ⟨_, showWith_none h.writable, ?_⟩
  rw [String.toList_join]
  exact h.writes

theorem prints_of_pieces {n : Nonterminal} {v : n.Value} {ps : List Piece}
    (h : g.pieces g.str r = .ok ps) (hs : ∀ s, .part s ∈ ps → g.Writable g.str s)
    (hw : Writes n v (ps.flatMap g.pieceChars)) : g.Prints n v r := by
  refine ⟨.intro h hs, ?_⟩
  have hchars : g.chars r = ps.flatMap g.pieceChars := by
    rw [chars, leaves_of_pieces h, List.flatMap_assoc]
    refine List.flatMap_congr fun p _ => ?_
    cases p with
    | lit s => simp [pieceLeaves, pieceChars]
    | part r => rfl
  rw [hchars]
  exact hw

theorem nameText_of_text? {r n : Ref} {x : String} (h : g.text? n = some x) : g.nameText r n = x := by
  rw [nameText, h]

theorem PlainTy.prints {A : Ty} (h : g.PlainTy r A) : g.Prints .ty A r := by
  induction h with
  | bottom h =>
    refine prints_of_pieces (by rw [pieces, h]) (by simp) ?_
    exact .node .bottom (.symbol (s := ['⊥']) (by decide) .nil) rfl
  | base h hn hx =>
    refine prints_of_pieces (by rw [pieces, h]) (by simp) ?_
    rw [nameText_of_text? hn]
    exact .node .base (.name hx endsWord_nil .nil) rfl
  | arrow h _ _ iha ihb =>
    refine prints_of_pieces (by rw [pieces, h]) (by simp [iha.writable, ihb.writable]) ?_
    exact writes_connect (o := .arrow) (s := ['-', '>']) (by decide) iha.writes ihb.writes
  | product h _ _ iha ihb =>
    refine prints_of_pieces (by rw [pieces, h]) (by simp [iha.writable, ihb.writable]) ?_
    exact writes_connect (o := .product) (s := ['×']) (by decide) iha.writes ihb.writes
  | sum h _ _ iha ihb =>
    refine prints_of_pieces (by rw [pieces, h]) (by simp [iha.writable, ihb.writable]) ?_
    exact writes_connect (o := .sum) (s := ['+']) (by decide) iha.writes ihb.writes

/-! ## terms -/

/-- The value at a reference is this term, and its names are plain. -/
inductive PlainTerm (g : Graph) : Ref → Term → Prop
  | var {r n : Ref} {x : String} (h : g.get r = .var n) (hn : g.text? n = some x)
      (hx : isPlain x = true) : PlainTerm g r (.var x)
  | pair {r a b : Ref} {t u : Term} (h : g.get r = .pair a b) (ha : PlainTerm g a t)
      (hb : PlainTerm g b u) : PlainTerm g r (.pair t u)
  | inl {r a : Ref} {t : Term} (h : g.get r = .inl a) (ha : PlainTerm g a t) :
      PlainTerm g r (.inl t)
  | inr {r a : Ref} {t : Term} (h : g.get r = .inr a) (ha : PlainTerm g a t) :
      PlainTerm g r (.inr t)
  | case {r a b c : Ref} {t u v : Term} (h : g.get r = .case a b c) (ha : PlainTerm g a t)
      (hb : PlainTerm g b u) (hc : PlainTerm g c v) : PlainTerm g r (.case t u v)
  | fst {r a : Ref} {t : Term} (h : g.get r = .fst a) (ha : PlainTerm g a t) :
      PlainTerm g r (.fst t)
  | snd {r a : Ref} {t : Term} (h : g.get r = .snd a) (ha : PlainTerm g a t) :
      PlainTerm g r (.snd t)
  | lambda {r n a b : Ref} {x : String} {A : Ty} {t : Term} (h : g.get r = .lambda n a b)
      (hn : g.text? n = some x) (hx : isPlain x = true) (ha : PlainTy g a A)
      (hb : PlainTerm g b t) : PlainTerm g r (.lambda x A t)
  | abort {r a : Ref} {t : Term} (h : g.get r = .abort a) (ha : PlainTerm g a t) :
      PlainTerm g r (.abort t)

theorem PlainTerm.prints {t : Term} (h : g.PlainTerm r t) : g.Prints .term t r := by
  induction h with
  | var h hn hx =>
    refine prints_of_pieces (by rw [pieces, h]) (by simp) ?_
    rw [nameText_of_text? hn]
    exact .node .var (.name hx endsWord_nil .nil) rfl
  | @pair r a b t u h _ _ iha ihb =>
    refine prints_of_pieces (by rw [pieces, h]) (by simp [iha.writable, ihb.writable]) ?_
    show Writes .term _ ('(' :: ("cons".toList ++ ' ' :: (g.chars a ++ ' ' :: (g.chars b ++ [')']))))
    exact .node .pair (.lparen (.word rfl rfl (endsWord_cons rfl)
      (.space (.part iha.writes (endsWord_cons rfl) (.space (.part ihb.writes (endsWord_cons rfl)
        (.rparen .nil))))))) rfl
  | inl h _ iha =>
    refine prints_of_pieces (by rw [pieces, h]) (by simp [iha.writable]) ?_
    exact writes_unary (o := .inl) (x := "inl") rfl rfl iha.writes
  | inr h _ iha =>
    refine prints_of_pieces (by rw [pieces, h]) (by simp [iha.writable]) ?_
    exact writes_unary (o := .inr) (x := "inr") rfl rfl iha.writes
  | @case r a b c t u v h _ _ _ iha ihb ihc =>
    refine prints_of_pieces (by rw [pieces, h])
      (by simp [iha.writable, ihb.writable, ihc.writable]) ?_
    show Writes .term _ ('(' :: ("case".toList ++ ' ' :: (g.chars a ++ ' ' :: (g.chars b ++
      ' ' :: (g.chars c ++ [')'])))))
    exact .node .case (.lparen (.word rfl rfl (endsWord_cons rfl)
      (.space (.part iha.writes (endsWord_cons rfl) (.space (.part ihb.writes (endsWord_cons rfl)
        (.space (.part ihc.writes (endsWord_cons rfl) (.rparen .nil))))))))) rfl
  | fst h _ iha =>
    refine prints_of_pieces (by rw [pieces, h]) (by simp [iha.writable]) ?_
    exact writes_unary (o := .fst) (x := "car") rfl rfl iha.writes
  | snd h _ iha =>
    refine prints_of_pieces (by rw [pieces, h]) (by simp [iha.writable]) ?_
    exact writes_unary (o := .snd) (x := "cdr") rfl rfl iha.writes
  | @lambda r n a b x A t h hn hx hA _ ihb =>
    have iha := hA.prints
    have hp : g.pieces g.str r =
        .ok [.lit ("(λ (" ++ x ++ " : "), .part a, .lit ") ", .part b, .lit ")"] := by
      rw [pieces, h]
      simp only [str_of_text? hn]
    refine prints_of_pieces hp (by simp [iha.writable, ihb.writable]) ?_
    simpa [pieceChars] using writes_lambda hx iha.writes ihb.writes
  | abort h _ iha =>
    refine prints_of_pieces (by rw [pieces, h]) (by simp [iha.writable]) ?_
    exact writes_unary (o := .abort) (x := "abort") rfl rfl iha.writes

/-! ## contexts and sequents -/

/-- The entry is a plain name with this type. -/
def PlainBinding (g : Graph) (e : Ref × Ref) (b : String × Ty) : Prop :=
  g.text? e.1 = some b.1 ∧ isPlain b.1 = true ∧ g.PlainTy e.2 b.2

/-- The value at a reference is an environment with the bindings of this context, in some order, and
its names are plain. -/
def PlainContext (g : Graph) (r : Ref) (Γ : Context) : Prop :=
  ∃ bs es, g.get r = .env bs ∧ es.Perm bs ∧ List.Forall₂ g.PlainBinding es Γ.bindings

/-- The text of an entry, as it stands between the commas. -/
theorem PlainBinding.show {e : Ref × Ref} {b : String × Ty} (h : g.PlainBinding e b) :
    ∃ s, (do
      let name ← g.str e.1
      let ty ← g.showWith g.str none e.2
      return name ++ " : " ++ ty : Except Failure String) = .ok s ∧ Writes .binding b s.toList := by
  obtain ⟨hname, hx, hty⟩ := h
  obtain ⟨s, hs, hw⟩ := hty.prints.show
  refine ⟨b.1 ++ " : " ++ s, by rw [str_of_text? hname, hs]; rfl, ?_⟩
  have hb : Writes .binding b (b.1.toList ++ ' ' :: ':' :: ' ' :: (s.toList ++ [])) :=
    .node .binding (.name hx (endsWord_cons rfl) (.space (.colon (.space
      (.part hw endsWord_nil .nil))))) rfl
  simpa using hb

theorem exists_parts {es : List (Ref × Ref)} {bs : List (String × Ty)}
    (h : List.Forall₂ g.PlainBinding es bs) :
    ∃ parts, (es.mapM fun e => do
      let name ← g.str e.1
      let ty ← g.showWith g.str none e.2
      return name ++ " : " ++ ty) = .ok parts ∧
        List.Forall₂ (fun b s => Writes .binding b s.toList) bs parts := by
  induction h with
  | nil => exact ⟨[], rfl, .nil⟩
  | cons hb _ ih =>
    obtain ⟨s, hs, hw⟩ := hb.show
    obtain ⟨parts, hparts, hall⟩ := ih
    refine ⟨s :: parts, ?_, .cons hw hall⟩
    rw [List.mapM_cons, hs, ok_bind, hparts]
    rfl

theorem PlainContext.show {Γ : Context} (h : g.PlainContext r Γ) :
    ∃ s Γ', g.showEnvWith g.str none r = .ok s ∧ Writes .context Γ' s.toList ∧
      g.PlainContext r Γ' := by
  obtain ⟨bs, es, hget, hperm, hall⟩ := h
  have hnames : ∀ e ∈ bs, ∃ w, g.text? e.1 = some w := by
    intro e he
    obtain ⟨b, hb⟩ := exists_of_forall₂ hall e (hperm.mem_iff.mpr he)
    exact ⟨b.1, hb.1⟩
  obtain ⟨es', hsort, hperm'⟩ := sortByName_of_texts hnames
  -- the bindings of the context in the order in which they are printed
  obtain ⟨bs', hall', hbs⟩ : ∃ bs', List.Forall₂ g.PlainBinding es' bs' ∧ bs'.Perm Γ.bindings := by
    have hcomp : Relation.Comp List.Perm (List.Forall₂ g.PlainBinding) es' Γ.bindings :=
      ⟨es, hperm'.trans hperm.symm, hall⟩
    rw [← List.forall₂_comp_perm_eq_perm_comp_forall₂] at hcomp
    exact hcomp
  obtain ⟨parts, hparts, hwrite⟩ := exists_parts hall'
  let Γ' : Context := ⟨bs', (hbs.map Prod.fst).nodup_iff.mpr Γ.nodup⟩
  refine ⟨"\x7b" ++ commas parts ++ "\x7d", Γ', ?_, writes_context (Γ := Γ') hwrite,
    bs, es', hget, hperm', hall'⟩
  rw [showEnvWith, hget]
  simp only [showBindingsWith, hsort, ok_bind, hparts]
  rfl

/-- The value at a reference is this sequent, and its names are plain. -/
def PlainSequent (g : Graph) (r : Ref) (q : Sequent) : Prop :=
  ∃ e t a, g.get r = .sequent e t a ∧ g.PlainContext e q.ctx ∧ g.PlainTerm t q.term ∧
    g.PlainTy a q.ty

theorem PlainSequent.show {q : Sequent} (h : g.PlainSequent r q) :
    ∃ s q', g.showSequentWith g.str none r = .ok s ∧ Writes .sequent q' s.toList ∧
      g.PlainSequent r q' := by
  obtain ⟨e, t, a, hget, he, ht, ha⟩ := h
  obtain ⟨s₁, Γ, hs₁, hw₁, hΓ⟩ := he.show
  obtain ⟨s₂, hs₂, hw₂⟩ := ht.prints.show
  obtain ⟨s₃, hs₃, hw₃⟩ := ha.prints.show
  refine ⟨s₁ ++ " ⊢ " ++ s₂ ++ " : " ++ s₃, ⟨Γ, q.term, q.ty⟩, ?_, ?_, ⟨e, t, a, hget, hΓ, ht, ha⟩⟩
  · rw [showSequentWith, hget]
    simp only [hs₁, hs₂, hs₃, ok_bind]
    rfl
  · have hq : Writes .sequent ⟨Γ, q.term, q.ty⟩ (s₁.toList ++ ' ' :: '⊢' :: ' ' :: (s₂.toList ++
        ' ' :: ':' :: ' ' :: (s₃.toList ++ []))) :=
      .node .sequent (.part hw₁ (endsWord_cons rfl) (.space (.symbol (s := ['⊢']) (by decide)
        (.space (.part hw₂ (endsWord_cons rfl) (.space (.colon (.space (.part hw₃ endsWord_nil
          .nil))))))))) rfl
    simpa using hq

/-! ## derivations -/

/-- The value at a reference is this derivation: its rule is a rule, its premises are a tuple, and its
names are plain. -/
inductive PlainDerivation (g : Graph) : Ref → Derivation → Prop
  | node {r R c p : Ref} {rule : Rule} {q : Sequent} {ps : List Ref} {ds : List Derivation}
      (h : g.get r = .derivation R c p) (hR : g.get R = .rule rule) (hc : g.PlainSequent c q)
      (hp : g.get p = .tuple ps) (hps : List.Forall₂ (PlainDerivation g) ps ds) :
      PlainDerivation g r (.node rule q ds)

theorem isPlain_tag (R : Rule) : isPlain R.tag = true := by cases R <;> rfl

/-- The premises of a derivation, each on a line of its own. -/
theorem exists_premises {n : Nat} {indent : Int} {ps : List Ref}
    (h : ∀ p ∈ ps, ∃ s d, (∀ acc, g.showTreeWith g.str n indent p acc = .ok (acc ++ s)) ∧
      Writes .derivation d s.toList ∧ g.PlainDerivation p d) :
    ∃ s ds, (∀ acc, ps.foldlM (fun acc q => g.showTreeWith g.str n indent q (acc ++ "\n")) acc =
        .ok (acc ++ s)) ∧
      (∀ ds₀ cs, Writes .premises ds₀ cs → Writes .premises (ds₀ ++ ds) (cs ++ s.toList)) ∧
      EndsWord s.toList ∧ List.Forall₂ g.PlainDerivation ps ds := by
  induction ps with
  | nil =>
    refine ⟨"", [], fun acc => ?_, fun ds₀ cs hw => ?_, endsWord_nil, .nil⟩
    · rw [String.append_empty]
      rfl
    · simpa using hw
  | cons p ps ih =>
    obtain ⟨s, d, hs, hw, hd⟩ := h p List.mem_cons_self
    obtain ⟨s', ds, hs', hw', -, hds⟩ := ih fun q hq => h q (List.mem_cons_of_mem p hq)
    refine ⟨"\n" ++ s ++ s', d :: ds, fun acc => ?_, fun ds₀ cs h₀ => ?_, ?_, .cons hd hds⟩
    · rw [List.foldlM_cons, hs, ok_bind, hs']
      simp only [String.append_assoc]
    · have hnext : Writes .premises (ds₀ ++ [d]) (cs ++ ('\n' :: s.toList ++ [])) :=
        .node .morePremises (.part h₀ (endsWord_cons rfl) (.part (hw.blank (.inr rfl)) endsWord_nil
          .nil)) rfl
      simpa using hw' _ _ hnext
    · rw [String.append_assoc, String.toList_append]
      exact endsWord_cons rfl

theorem lt_of_premise {r R c p q : Ref} {ps : List Ref} (h : g.get r = .derivation R c p)
    (hp : g.get p = .tuple ps) (hq : q ∈ ps) : q < r := by
  have hpr : p < r := g.forall_fields_lt r (.premises, p) (by simp [h, Cell.fields])
  have hqp : q < p := lt_of_mem_refs (g := g) (by rw [hp]; exact nofun)
    (by simp [hp, Cell.refs, Cell.items, hq])
  exact Nat.lt_trans hqp hpr

theorem PlainDerivation.lt_size {r : Ref} {d : Derivation} (h : g.PlainDerivation r d) :
    r < g.size := by
  cases h with
  | node hget =>
    have hsome := getElem?_of_get hget nofun
    exact (Array.getElem?_eq_some_iff.mp hsome).1

theorem PlainDerivation.show {n : Nat} {r : Ref} {d : Derivation} (h : g.PlainDerivation r d)
    (hr : r < n) (indent : Int) :
    ∃ s d', (∀ acc, g.showTreeWith g.str n indent r acc = .ok (acc ++ s)) ∧
      Writes .derivation d' s.toList ∧ g.PlainDerivation r d' := by
  induction n generalizing r d indent with
  | zero => exact absurd hr (Nat.not_lt_zero _)
  | succ n ih =>
    cases h with
    | @node _ R c p rule q ps ds hget hR hc hp hps =>
      have hpremise : ∀ p' ∈ ps, ∃ s d,
          (∀ acc, g.showTreeWith g.str n (indent + 1) p' acc = .ok (acc ++ s)) ∧
            Writes .derivation d s.toList ∧ g.PlainDerivation p' d := by
        intro p' hp'
        have hlt := lt_of_premise hget hp hp'
        obtain ⟨d', hd'⟩ := exists_of_forall₂ hps p' hp'
        exact ih hd' (Nat.lt_of_lt_of_le hlt (Nat.le_of_lt_succ hr)) (indent + 1)
      obtain ⟨s₁, q', hs₁, hw₁, hq'⟩ := hc.show
      obtain ⟨s₂, ds', hs₂, hw₂, hends, hds'⟩ := exists_premises hpremise
      have htag : g.str R = .ok rule.tag := str_of_text? (by rw [text?, hR]; rfl)
      refine ⟨indentation indent ++ "(" ++ rule.tag ++ " " ++ s₁ ++ s₂ ++ ")",
        .node rule q' ds', ?_, ?_, .node hget hR hq' hp hds'⟩
      · intro acc
        rw [showTreeWith, hget]
        simp only [htag, hs₁, printedPremises, hp, ok_bind, hs₂, String.append_assoc]
        rfl
      · have hd : Writes .derivation (.node rule q' ds') ('(' :: (rule.tag.toList ++ ' ' ::
            (s₁.toList ++ (s₂.toList ++ [')'])))) :=
          .node .derivation (.lparen (.name (isPlain_tag rule) (endsWord_cons rfl) (.space (.part hw₁
            (hends.append (endsWord_cons rfl)) (.part (hw₂ [] [] .noPremises) (endsWord_cons rfl)
              (.rparen .nil)))))) (congrArg (Option.map _) (Rule.ofTag?_tag rule))
        simpa [indentation] using hd.indent (2 * indent.toNat)

/-! ## printing and reading back -/

/-- **Printed values are read back.** -/
theorem parse_show (g : Graph) :
    (∀ r A, g.PlainTy r A → ∃ s, g.showValue none r = .ok s ∧ parseTy s = .ok A) ∧
    (∀ r t, g.PlainTerm r t → ∃ s, g.showValue none r = .ok s ∧ parseTerm s = .ok t) ∧
    (∀ r Γ, g.PlainContext r Γ →
      ∃ s Γ', g.showEnv none r = .ok s ∧ parseContext s = .ok Γ' ∧ g.PlainContext r Γ') ∧
    (∀ r q, g.PlainSequent r q →
      ∃ s q', g.showSequent none r = .ok s ∧ parseSequent s = .ok q' ∧ g.PlainSequent r q') ∧
    ∀ r d, g.PlainDerivation r d → ∀ depth : Int,
      ∃ s d', g.showDerivation depth r = .ok s ∧ parseDerivation s = .ok d' ∧
        g.PlainDerivation r d' := by
  refine ⟨fun r A h => ?_, fun r t h => ?_, fun r Γ h => ?_, fun r q h => ?_, fun r d h depth => ?_⟩
  · obtain ⟨s, hs, hw⟩ := h.prints.show
    exact ⟨s, hs, (parseWith_eq_ok_iff yields_readTy_iff).mpr hw.exists_tree⟩
  · obtain ⟨s, hs, hw⟩ := h.prints.show
    exact ⟨s, hs, (parseWith_eq_ok_iff yields_readTerm_iff).mpr hw.exists_tree⟩
  · obtain ⟨s, Γ', hs, hw, hΓ⟩ := h.show
    exact ⟨s, Γ', hs, (parseWith_eq_ok_iff yields_readContext_iff).mpr hw.exists_tree, hΓ⟩
  · obtain ⟨s, q', hs, hw, hq⟩ := h.show
    exact ⟨s, q', hs, (parseWith_eq_ok_iff yields_readSequent_iff).mpr hw.exists_tree, hq⟩
  · have hr : r < g.size + 1 := Nat.lt_succ_of_lt h.lt_size
    obtain ⟨s, d', hs, hw, hd⟩ := h.show hr depth
    refine ⟨s, d', ?_, (parseWith_eq_ok_iff yields_readDerivation_iff).mpr hw.exists_tree, hd⟩
    rw [showDerivation, hs, String.empty_append]

/-- `(InLIntro {y : Assm, x : (Assm -> Assm)} ⊢ (inl y) : (Assm + (Assm -> Assm)) (Assm …))`, with its
bindings out of order and a rule as the name of a type. -/
def unsortedNames : Graph where
  cells := #[.rule .assm, .base 0, .arrow 1 1, .text "y", .text "x", .env [(3, 1), (4, 2)], .var 3,
    .sequent 5 6 1, .tuple [], .derivation 0 7 8, .inl 6, .sum 1 2, .sequent 5 10 11, .rule .inlIntro,
    .tuple [9], .derivation 13 12 14]
  below := by decide
  apart := by decide

theorem parse_show_unsortedNames :
    let A := Ty.base "Assm"
    let Γ : Context := ⟨[("y", A), ("x", .arrow A A)], by decide⟩
    let d := Derivation.node .inlIntro ⟨Γ, .inl (.var "y"), .sum A (.arrow A A)⟩
      [.node .assm ⟨Γ, .var "y", A⟩ []]
    unsortedNames.PlainDerivation 15 d ∧
      ∃ s d', unsortedNames.showDerivation 1 15 = .ok s ∧ parseDerivation s = .ok d' ∧
        unsortedNames.PlainDerivation 15 d' := by
  intro A Γ d
  have hA : unsortedNames.PlainTy 1 A := .base rfl rfl rfl
  have hAA : unsortedNames.PlainTy 2 (.arrow A A) := .arrow rfl hA hA
  have hy : unsortedNames.PlainTerm 6 (.var "y") := .var rfl rfl rfl
  have hbind : unsortedNames.PlainBinding (3, 1) ("y", A) :=
    ⟨rfl, show isPlain "y" = true from rfl, hA⟩
  have hbind' : unsortedNames.PlainBinding (4, 2) ("x", .arrow A A) :=
    ⟨rfl, show isPlain "x" = true from rfl, hAA⟩
  have hΓ : unsortedNames.PlainContext 5 Γ :=
    ⟨_, _, rfl, .refl _, .cons hbind (.cons hbind' .nil)⟩
  have hleaf : unsortedNames.PlainDerivation 9 (.node .assm ⟨Γ, .var "y", A⟩ []) :=
    .node rfl rfl ⟨5, 6, 1, rfl, hΓ, hy, hA⟩ rfl .nil
  have hd : unsortedNames.PlainDerivation 15 d :=
    .node rfl rfl ⟨5, 10, 11, rfl, hΓ, .inl rfl hy, .sum rfl hA hAA⟩ rfl (.cons hleaf .nil)
  exact ⟨hd, (parse_show unsortedNames).2.2.2.2 15 d hd 1⟩

end Graph

end NaturalDeduction
