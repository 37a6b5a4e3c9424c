import NaturalDeduction.Proofs.Reading

/-!
# Groups of tokens

An environment and a node of a derivation are written between brackets. In a list of tokens they can be
pointed out without reading it: as parts of the list that have a parse tree.

* `Forms n ws`          the tokens `ws` have a parse tree for `n`;
* `depth`, `Steady`, `Balanced`   opening brackets less closing ones, and lists in which none closes
                        that was not opened;
* `Tree.balanced`       what has a parse tree is balanced;
* `IsGroup`             the tokens of an environment or of a node: as long as they have not come to their
                        end, a bracket is open;
* `binders`, `Sound`    the names that an environment binds, and groups that bind no name twice and name
                        a rule;
* `Clean`               all groups among some tokens are sound. They are so in two lists one after the
                        other if the first one is balanced, and after a bracket that is not closed.
-/

namespace NaturalDeduction.Source

/-! ## tokens with a parse tree -/

/-- The tokens have a parse tree for `n`, whatever it stands for. -/
def Forms (n : Nonterminal) (ws : List Token) : Prop := ∃ t : Tree n, ws.map Token.lexeme = t.yield

/-- The tokens have parse trees for the symbols of `rhs`. -/
def FormsAll (rhs : List Symbol) (ws : List Token) : Prop :=
  ∃ f : Forest rhs, ws.map Token.lexeme = f.yield

section
variable {n : Nonterminal} {k : TokenKind} {rhs : List Symbol} {t : Token} {us vs ws : List Token}

theorem FormsAll.nil : FormsAll [] [] := ⟨.nil, rfl⟩

theorem FormsAll.token (ht : t.kind = k) (h : FormsAll rhs ws) :
    FormsAll (.terminal k :: rhs) (t :: ws) := by
  subst ht
  obtain ⟨f, hf⟩ := h
  exact ⟨.leaf t.text f, by rw [List.map_cons, hf]; rfl⟩

theorem FormsAll.part (hu : Forms n us) (hv : FormsAll rhs vs) :
    FormsAll (.nonterminal n :: rhs) (us ++ vs) := by
  obtain ⟨t, ht⟩ := hu
  obtain ⟨f, hf⟩ := hv
  exact ⟨.tree t f, by rw [List.map_append, ht, hf]; rfl⟩

theorem Forms.node (p : Production n rhs) (h : FormsAll rhs ws) : Forms n ws := by
  obtain ⟨f, hf⟩ := h
  exact ⟨.node p f, hf⟩

theorem FormsAll.of_nil (h : FormsAll [] ws) : ws = [] := by
  obtain ⟨⟨⟩, hf⟩ := h
  exact List.map_eq_nil_iff.mp hf

theorem FormsAll.of_token (h : FormsAll (.terminal k :: rhs) ws) :
    ∃ t vs, ws = t :: vs ∧ t.kind = k ∧ FormsAll rhs vs := by
  obtain ⟨f, hf⟩ := h
  obtain ⟨s, f, rfl⟩ := f.eq_leaf
  obtain ⟨t, vs, rfl, ht, hvs⟩ := List.map_eq_cons_iff.mp hf
  exact ⟨t, vs, rfl, congrArg Lexeme.kind ht, f, hvs⟩

theorem FormsAll.of_part (h : FormsAll (.nonterminal n :: rhs) ws) :
    ∃ us vs, ws = us ++ vs ∧ Forms n us ∧ FormsAll rhs vs := by
  obtain ⟨f, hf⟩ := h
  obtain ⟨t, f, rfl⟩ := f.eq_tree
  obtain ⟨us, vs, rfl, hu, hv⟩ := List.map_eq_append_iff.mp hf
  exact ⟨us, vs, rfl, ⟨t, hu⟩, f, hv⟩

theorem Forms.of_node (h : Forms n ws) : ∃ rhs, ∃ _ : Production n rhs, FormsAll rhs ws := by
  obtain ⟨⟨p, f⟩, hf⟩ := h
  exact ⟨_, p, f, hf⟩

/-- What spans a value forms a tree. -/
theorem Spans.forms {v : n.Value} (h : Spans n v ws vs) : ∃ us, ws = us ++ vs ∧ Forms n us := by
  obtain ⟨t, -, us, rfl, hus⟩ := h
  exact ⟨us, rfl, t, hus⟩

theorem forms_noPremises : Forms .premises [] :=
  .node .noPremises (.part (.node .empty .nil) .nil)

/-- Premises are taken from the left here, and from the right by the grammar. -/
theorem Forms.cons_premise (hu : Forms .derivation us) (hv : Forms .premises vs) :
    Forms .premises (us ++ vs) := by
  obtain ⟨d, hd⟩ := hu
  obtain ⟨t, ht⟩ := hv
  obtain ⟨ds, rfl⟩ := t.exists_ofPremises
  refine ⟨.ofPremises (d :: ds), ?_⟩
  rw [List.map_append, hd, ht, Tree.yield_ofPremises, Tree.yield_ofPremises, List.flatMap_cons]

end

theorem Token.kind_ne {t : Token} {k k' : TokenKind} (h : t.kind = k) (hk : k ≠ k') : t.kind ≠ k' := by
  rw [h]
  exact hk

/-! ## brackets -/

/-- How a token changes the number of open brackets. -/
def TokenKind.step : TokenKind → Int
  | lparen => 1
  | lbrace => 1
  | rparen => -1
  | rbrace => -1
  | _ => 0

/-- Opening brackets less closing ones. -/
def depth : List TokenKind → Int
  | [] => 0
  | k :: w => k.step + depth w

theorem depth_nil : depth [] = 0 := rfl

theorem depth_cons (k : TokenKind) (w : List TokenKind) : depth (k :: w) = k.step + depth w := rfl

theorem depth_append (u v : List TokenKind) : depth (u ++ v) = depth u + depth v := by
  induction u with
  | nil =>
    show depth v = 0 + depth v
    omega
  | cons k u ih =>
    show k.step + depth (u ++ v) = k.step + depth u + depth v
    omega

/-- With `d` brackets open before it, no bracket is closed that was not opened. -/
def Steady (d : Int) (w : List TokenKind) : Prop := ∀ u, u <+: w → 0 ≤ d + depth u

/-- No bracket is closed that was not opened, and none is left open. -/
structure Balanced (w : List TokenKind) : Prop where
  steady : Steady 0 w
  closed : depth w = 0

section
variable {d e : Int} {k : TokenKind} {u v w : List TokenKind}

theorem steady_nil (hd : 0 ≤ d) : Steady d [] := by
  intro u hu
  rw [List.prefix_nil.mp hu, depth_nil]
  omega

theorem steady_cons (hd : 0 ≤ d) (h : Steady (d + k.step) w) : Steady d (k :: w) := by
  intro u hu
  obtain rfl | ⟨t, rfl, ht⟩ := List.prefix_cons_iff.mp hu
  · rw [depth_nil]
    omega
  · have := h t ht
    rw [depth_cons]
    omega

theorem Steady.append (hu : Steady d u) (hv : Steady (d + depth u) v) : Steady d (u ++ v) := by
  intro p hp
  obtain hp | ⟨t, ht, rfl⟩ : p <+: u ∨ ∃ t, t <+: v ∧ p = u ++ t := by
    obtain h | ⟨t, rfl⟩ := List.prefix_or_prefix_of_prefix hp (List.prefix_append u v)
    · exact .inl h
    · exact .inr ⟨t, (List.prefix_append_right_inj u).mp hp, rfl⟩
  · exact hu p hp
  · have := hv t ht
    rw [depth_append]
    omega

theorem Steady.mono (h : Steady d w) (hde : d ≤ e) : Steady e w := by
  intro u hu
  have := h u hu
  omega

/-- After a bracket that is opened. -/
theorem Steady.cons_open (hk : k.step = 1) (h : Steady 0 w) : Steady 0 (k :: w) := by
  refine steady_cons (Int.le_refl 0) (h.mono ?_)
  omega

theorem Balanced.append (hu : Balanced u) (hv : Balanced v) : Balanced (u ++ v) := by
  refine ⟨hu.steady.append ?_, ?_⟩
  · rw [hu.closed]
    exact hv.steady
  · rw [depth_append, hu.closed, hv.closed]
    rfl

theorem balanced_nil : Balanced [] := ⟨steady_nil (Int.le_refl 0), rfl⟩

theorem Balanced.cons (hk : k.step = 0) (h : Balanced w) : Balanced (k :: w) := by
  refine ⟨steady_cons (Int.le_refl 0) ?_, ?_⟩
  · rw [hk]
    exact h.steady
  · rw [depth_cons, hk, h.closed]
    rfl

/-- What comes last in a balanced list opens no bracket that it does not close. -/
theorem Balanced.depth_suffix (h : Balanced w) (hv : v <:+ w) : depth v ≤ 0 := by
  obtain ⟨u, rfl⟩ := hv
  have hu := h.steady u (List.prefix_append u v)
  have hw := h.closed
  rw [depth_append] at hw
  omega

end

/-- The terminals of a right side close what they and `d` brackets before them have opened. -/
def Closes : Int → List Symbol → Prop
  | d, [] => d = 0
  | d, .terminal k :: rhs => 0 ≤ d ∧ Closes (d + k.step) rhs
  | d, .nonterminal _ :: rhs => 0 ≤ d ∧ Closes d rhs

theorem Production.closes {n : Nonterminal} {rhs : List Symbol} (p : Production n rhs) :
    Closes 0 rhs := by
  cases p with
  | connect o => cases o <;> simp [Closes, TokenKind.step, Connective.kind]
  | unary o => cases o <;> simp [Closes, TokenKind.step, Unary.kind]
  | _ => simp [Closes, TokenKind.step]

mutual

/-- What has a parse tree is balanced. -/
theorem Tree.balanced {n : Nonterminal} : (t : Tree n) → Balanced (t.yield.map Lexeme.kind)
  | .node p f => by
    obtain ⟨hs, hd⟩ := f.steady p.closes
    exact ⟨hs, by rw [Tree.yield]; omega⟩

theorem Forest.steady {rhs : List Symbol} {d : Int} : (f : Forest rhs) → Closes d rhs →
    Steady d (f.yield.map Lexeme.kind) ∧ d + depth (f.yield.map Lexeme.kind) = 0
  | .nil, h => by
    obtain rfl : d = 0 := h
    exact ⟨steady_nil (Int.le_refl 0), rfl⟩
  | @Forest.leaf k _ s f, h => by
    obtain ⟨hs, hd⟩ := f.steady h.2
    refine ⟨steady_cons h.1 hs, ?_⟩
    rw [Forest.yield, List.map_cons, depth_cons]
    show d + (k.step + _) = 0
    omega
  | .tree t f, h => by
    obtain ⟨hs, hd⟩ := f.steady h.2
    have ht := t.balanced
    rw [Forest.yield, List.map_append]
    refine ⟨(ht.steady.mono h.1).append ?_, ?_⟩
    · rw [ht.closed, Int.add_zero]
      exact hs
    · rw [depth_append, ht.closed]
      omega

end

/-! ## tokens that do not occur -/

/-- Kinds of tokens that do not occur in what has a tree for the nonterminal. -/
def Nonterminal.lacks : Nonterminal → TokenKind → Bool
  | ty, k => k == .lbrace || k == .colon
  | term, k => k == .lbrace
  | bindings, k => k == .lbrace
  | binding, k => k == .lbrace
  | _, _ => false

def Symbol.lacks : Symbol → TokenKind → Bool
  | terminal k', k => k' != k
  | nonterminal n, k => n.lacks k

theorem Production.lacks {n : Nonterminal} {rhs : List Symbol} (p : Production n rhs) {k : TokenKind}
    (hk : n.lacks k = true) : ∀ s ∈ rhs, s.lacks k = true := by
  cases p with
  | connect o => cases o <;> cases k <;> simp_all [Nonterminal.lacks, Symbol.lacks, Connective.kind]
  | unary o => cases o <;> cases k <;> simp_all [Nonterminal.lacks, Symbol.lacks, Unary.kind]
  | _ => cases k <;> simp_all [Nonterminal.lacks, Symbol.lacks]

mutual

theorem Tree.lacks {n : Nonterminal} {k : TokenKind} : (t : Tree n) → n.lacks k = true →
    ∀ l ∈ t.yield, l.kind ≠ k
  | .node p f, h => f.lacks (p.lacks h)

theorem Forest.lacks {rhs : List Symbol} {k : TokenKind} : (f : Forest rhs) →
    (∀ s ∈ rhs, s.lacks k = true) → ∀ l ∈ f.yield, l.kind ≠ k
  | .nil, _ => nofun
  | .leaf s f, h => by
    obtain ⟨hs, h⟩ := List.forall_mem_cons.mp h
    exact List.forall_mem_cons.mpr ⟨bne_iff_ne.mp hs, f.lacks h⟩
  | .tree t f, h => by
    obtain ⟨ht, h⟩ := List.forall_mem_cons.mp h
    exact List.forall_mem_append.mpr ⟨t.lacks ht, f.lacks h⟩

end

/-! ## groups -/

section
variable {n : Nonterminal} {k : TokenKind} {us vs ws : List Token}

theorem kinds_of_yield {t : Tree n} (h : ws.map Token.lexeme = t.yield) :
    ws.map Token.kind = t.yield.map Lexeme.kind := by
  rw [← h, List.map_map]
  rfl

theorem Forms.balanced (h : Forms n ws) : Balanced (ws.map Token.kind) := by
  obtain ⟨t, ht⟩ := h
  rw [kinds_of_yield ht]
  exact t.balanced

theorem balanced_singleton {t : Token} (h : t.kind.step = 0) : Balanced ([t].map Token.kind) :=
  balanced_nil.cons h

theorem Forms.lacks (h : Forms n ws) (hk : n.lacks k = true) : ∀ t ∈ ws, t.kind ≠ k := by
  obtain ⟨t, ht⟩ := h
  intro x hx
  exact t.lacks hk x.lexeme (ht ▸ List.mem_map_of_mem hx)

/-- The tokens of an environment or of a node: brackets around a balanced list, with a brace. -/
structure IsGroup (ws : List Token) : Prop where
  ends : ∃ l mid q, ws = l :: (mid ++ [q]) ∧ l.kind.step = 1 ∧ q.kind.step = -1 ∧
    Balanced (mid.map Token.kind)
  brace : ∃ t ∈ ws, t.kind = .lbrace

theorem IsGroup.closed (h : IsGroup ws) : depth (ws.map Token.kind) = 0 := by
  obtain ⟨l, mid, q, rfl, hl, hq, hm⟩ := h.ends
  rw [List.map_cons, List.map_append, depth_cons, depth_append, hm.closed, hl]
  show 1 + (0 + depth [q.kind]) = 0
  rw [depth_cons, hq]
  rfl

/-- A bracket is open as long as the group has not come to its end. -/
theorem IsGroup.opened (h : IsGroup (us ++ vs)) (hu : us ≠ []) (hv : vs ≠ []) :
    1 ≤ depth (us.map Token.kind) := by
  obtain ⟨l, mid, q, e, hl, -, hm⟩ := h.ends
  cases us with
  | nil => exact absurd rfl hu
  | cons l' u =>
    obtain ⟨rfl, e'⟩ := List.cons.inj e
    have hpre : u <+: mid := by
      refine (List.prefix_concat_iff.mp ⟨vs, e'⟩).resolve_left fun he => hv ?_
      rw [he] at e'
      simpa using e'
    have := hm.steady _ (hpre.map Token.kind)
    rw [List.map_cons, depth_cons, hl]
    omega

/-- No group is the first part of another one. -/
theorem IsGroup.eq_of_prefix (h : IsGroup ws) (hu : IsGroup us) (hp : ws <+: us) : ws = us := by
  obtain ⟨vs, rfl⟩ := hp
  by_cases hv : vs = []
  · rw [hv, List.append_nil]
  · have hne : ws ≠ [] := by
      obtain ⟨l, mid, q, rfl, -⟩ := h.ends
      exact List.cons_ne_nil _ _
    have := hu.opened hne hv
    have := h.closed
    omega

theorem Forms.of_context (h : Forms .context ws) : ∃ l mid q, ws = l :: (mid ++ [q]) ∧
    l.kind = .lbrace ∧ q.kind = .rbrace ∧ (mid = [] ∨ Forms .bindings mid) := by
  obtain ⟨rhs, p, h⟩ := h.of_node
  cases p with
  | noBindings =>
    obtain ⟨l, _, rfl, hl, h⟩ := h.of_token
    obtain ⟨q, _, rfl, hq, h⟩ := h.of_token
    obtain rfl := h.of_nil
    exact ⟨l, [], q, rfl, hl, hq, .inl rfl⟩
  | someBindings =>
    obtain ⟨l, _, rfl, hl, h⟩ := h.of_token
    obtain ⟨mid, _, rfl, hm, h⟩ := h.of_part
    obtain ⟨q, _, rfl, hq, h⟩ := h.of_token
    obtain rfl := h.of_nil
    exact ⟨l, mid, q, rfl, hl, hq, .inr hm⟩

theorem Forms.of_derivation (h : Forms .derivation ws) : ∃ l x s ps q,
    ws = l :: (x :: (s ++ ps) ++ [q]) ∧ l.kind = .lparen ∧ x.kind = .ident ∧ q.kind = .rparen ∧
      Forms .sequent s ∧ Forms .premises ps := by
  obtain ⟨rhs, p, h⟩ := h.of_node
  cases p with
  | derivation =>
    obtain ⟨l, _, rfl, hl, h⟩ := h.of_token
    obtain ⟨x, _, rfl, hx, h⟩ := h.of_token
    obtain ⟨s, _, rfl, hs, h⟩ := h.of_part
    obtain ⟨ps, _, rfl, hps, h⟩ := h.of_part
    obtain ⟨q, _, rfl, hq, h⟩ := h.of_token
    obtain rfl := h.of_nil
    exact ⟨l, x, s, ps, q, by simp, hl, hx, hq, hs, hps⟩

theorem isGroup_of_context (h : Forms .context ws) : IsGroup ws := by
  obtain ⟨l, mid, q, rfl, hl, hq, hm⟩ := h.of_context
  refine ⟨⟨l, mid, q, rfl, by rw [hl]; rfl, by rw [hq]; rfl, ?_⟩, l, List.mem_cons_self, hl⟩
  rcases hm with rfl | hm
  · exact balanced_nil
  · exact hm.balanced

/-- What comes between the parentheses of a node. -/
theorem balanced_inside {x : Token} (hx : x.kind = .ident) (hu : Forms .sequent us)
    (hv : Forms .premises vs) : Balanced ((x :: (us ++ vs)).map Token.kind) := by
  rw [List.map_cons, List.map_append]
  exact (hu.balanced.append hv.balanced).cons (by rw [hx]; rfl)

theorem isGroup_of_derivation (h : Forms .derivation ws) : IsGroup ws := by
  obtain ⟨l, x, s, ps, q, rfl, hl, hx, hq, hs, hps⟩ := h.of_derivation
  refine ⟨⟨l, x :: (s ++ ps), q, rfl, by rw [hl]; rfl, by rw [hq]; rfl, balanced_inside hx hs hps⟩, ?_⟩
  -- the brace is that of the environment in its sequent
  obtain ⟨rhs, p, hs⟩ := hs.of_node
  cases p with
  | sequent =>
    obtain ⟨Γ, _, rfl, hΓ, -⟩ := hs.of_part
    obtain ⟨b, -, -, rfl, hb, -⟩ := hΓ.of_context
    exact ⟨b, by simp, hb⟩

/-! ## sound groups -/

/-- The tokens that stand before a colon: in an environment, the names that it binds. -/
def binders : List Token → List Token
  | x :: c :: ts => if c.kind = .colon then x :: binders (c :: ts) else binders (c :: ts)
  | _ => []

theorem mem_of_mem_binders {x : Token} {ws : List Token} (h : x ∈ binders ws) : x ∈ ws := by
  induction ws using binders.induct with
  | case1 y c ts hc ih =>
    rw [binders, if_pos hc] at h
    rcases List.mem_cons.mp h with rfl | h
    · exact List.mem_cons_self
    · exact List.mem_cons_of_mem y (ih h)
  | case2 y c ts hc ih =>
    rw [binders, if_neg hc] at h
    exact List.mem_cons_of_mem y (ih h)
  | case3 ts hts =>
    rw [binders.eq_2 ts hts] at h
    exact absurd h List.not_mem_nil

theorem binders_skip {a v : Token} {us vs : List Token} (hu : ∀ t ∈ us, t.kind ≠ .colon)
    (hv : v.kind ≠ .colon) : binders (a :: (us ++ v :: vs)) = binders (v :: vs) := by
  induction us generalizing a with
  | nil =>
    show binders (a :: v :: vs) = _
    rw [binders, if_neg hv]
  | cons u us ih =>
    obtain ⟨hu, hus⟩ := List.forall_mem_cons.mp hu
    show binders (a :: u :: (us ++ v :: vs)) = _
    rw [binders, if_neg hu]
    exact ih hus

/-- If the tokens are an environment, it binds no name twice; if they are a node, the token after its
parenthesis names a rule. -/
structure Sound (ws : List Token) : Prop where
  context : Forms .context ws → ((binders ws).map Token.text).Nodup
  node : Forms .derivation ws → ∃ R : Rule, ∃ x, ws[1]? = some x ∧ x.text = R.tag

/-- Every environment and every node that is written among the tokens is sound. -/
def Clean (us : List Token) : Prop := ∀ ws, ws <:+: us → Sound ws

theorem sound_of_group (h : IsGroup ws → Sound ws) : Sound ws :=
  ⟨fun hc => (h (isGroup_of_context hc)).context hc,
    fun hd => (h (isGroup_of_derivation hd)).node hd⟩

theorem clean_of_lacks (h : ∀ t ∈ us, t.kind ≠ .lbrace) : Clean us := by
  intro ws hws
  refine sound_of_group fun hg => ?_
  obtain ⟨t, ht, hk⟩ := hg.brace
  exact absurd hk (h t (hws.subset ht))

theorem clean_singleton {t : Token} (h : t.kind ≠ .lbrace) : Clean [t] :=
  clean_of_lacks (List.forall_mem_singleton.mpr h)

/-- No group goes beyond the end of a balanced list. -/
theorem Clean.append (hb : Balanced (us.map Token.kind)) (hu : Clean us) (hv : Clean vs) :
    Clean (us ++ vs) := by
  intro ws hws
  refine sound_of_group fun hg => ?_
  obtain h | h | ⟨a, b, ha, hb', rfl, hsuf, -⟩ := List.infix_append_iff_ne_nil.mp hws
  · exact hu ws h
  · exact hv ws h
  · have := hg.opened ha hb'
    have := hb.depth_suffix (hsuf.map Token.kind)
    omega

/-- No group starts with a bracket that is not closed. -/
theorem Clean.cons {l : Token} (hl : l.kind.step = 1) (hs : Steady 0 (us.map Token.kind))
    (h : Clean us) : Clean (l :: us) := by
  intro ws hws
  refine sound_of_group fun hg => ?_
  obtain hp | hi := List.infix_cons_iff.mp hws
  · have hclosed := hg.closed
    obtain rfl | ⟨t, rfl, ht⟩ := List.prefix_cons_iff.mp hp
    · obtain ⟨t, ht, -⟩ := hg.brace
      cases ht
    · have := hs _ (ht.map Token.kind)
      rw [List.map_cons, depth_cons, hl] at hclosed
      omega
  · exact h ws hi

/-- The groups in a group are those inside, and the group itself. -/
theorem clean_of_group {l : Token} (hg : IsGroup (l :: us)) (hs : Sound (l :: us)) (h : Clean us) :
    Clean (l :: us) := by
  intro ws hws
  refine sound_of_group fun hw => ?_
  obtain hp | hi := List.infix_cons_iff.mp hws
  · rw [hw.eq_of_prefix hg hp]
    exact hs
  · exact h ws hi

end

end NaturalDeduction.Source
