import NaturalDeduction.Proofs.Phases

/-!
# Texts cut to a limit

Printing with a limit stops in the middle of a value, and the types of an environment are cut one by
one before the environment is. The result is the full text, cut once.

* `clip`                 a text cut to so many characters;
* `Graph.plain`          the text of a value by recursion on it;
* `emit_of_plain`        printing a value is printing its plain text at once, whatever the limit is;
* `showValue_none`       without a limit, the plain text is printed;
* `SameUpTo`             two texts that no limit up to `n` tells apart, which concatenation preserves;
* `Graph.Spelled`        a value whose parameters are texts: it has a plain text;
* `limited_printing`     what is printed with a limit, for values and for environments.
-/

namespace NaturalDeduction

/-- A text cut to `n` characters, and marked if it was longer. -/
def clip (n : Nat) (s : String) : String :=
  if s.length ≤ n then s else String.ofList (s.toList.take n) ++ "…"

theorem cut_eq_clip (n : Nat) (s : String) : cut (some n) s = clip n s := by
  show (if (s.length : Int) > n then cutTo n s ++ ellipsis else s) = _
  unfold clip
  by_cases h : s.length ≤ n
  · rw [if_pos h, if_neg (by omega)]
  · have hn : n ≤ s.toList.length := by rw [String.length_toList]; omega
    rw [if_neg h, if_pos (by omega), cutTo, Text.takeTo_natCast _ hn]
    rfl

/-! ## printing at once -/

/-- A limit as the printer takes it. -/
def signed (limit : Option Nat) : Option Int := limit.map Int.ofNat

namespace Output

/-- An output that is not yet cut. -/
structure Within (limit : Option Nat) (o : Output) : Prop where
  size : o.size = o.text.length
  le : ∀ n, limit = some n → o.size ≤ n

theorem within_empty (limit : Option Nat) : Output.empty.Within limit :=
  ⟨rfl, fun n _ => Nat.zero_le n⟩

variable {limit : Option Nat} {o o' : Output}

theorem put_some (o : Output) (n : Nat) (s : String) : o.put (signed (some n)) s =
    if o.size + s.length ≤ n then .ok ⟨o.text ++ s, o.size + s.length⟩
    else .error (.cut (cutTo n (o.text ++ s) ++ ellipsis)) := by
  show (if ((o.size + s.length : Nat) : Int) > (n : Int) then _ else _) = _
  by_cases h : o.size + s.length ≤ n
  · rw [if_pos h, if_neg (by omega)]
  · rw [if_neg h, if_pos (by omega)]
    rfl

theorem Within.put (ho : o.Within limit) {s : String} (h : o.put (signed limit) s = .ok o') :
    o'.Within limit := by
  cases limit with
  | none =>
    obtain rfl := Except.ok.inj h
    exact ⟨by rw [String.length_append, ho.size], nofun⟩
  | some n =>
    rw [put_some] at h
    split at h
    case isFalse => cases h
    case isTrue hn =>
      obtain rfl := Except.ok.inj h
      refine ⟨by rw [String.length_append, ho.size], fun m hm => ?_⟩
      obtain rfl := Option.some.inj hm
      exact hn

theorem Within.put_empty (ho : o.Within limit) : o.put (signed limit) "" = .ok o := by
  have hput : (⟨o.text ++ "", o.size + "".length⟩ : Output) = o := by rw [String.append_empty]; rfl
  cases limit with
  | none => exact congrArg Except.ok hput
  | some n =>
    have hle : o.size + "".length ≤ n := ho.le n rfl
    rw [put_some, if_pos hle, hput]

/-- Two texts one after the other are as good as one: a text that is cut already stays as it is. -/
theorem Within.put_put (ho : o.Within limit) (s t : String) :
    (o.put (signed limit) s >>= fun o => o.put (signed limit) t) = o.put (signed limit) (s ++ t) := by
  have hsum : (⟨o.text ++ s ++ t, o.size + s.length + t.length⟩ : Output) =
      ⟨o.text ++ (s ++ t), o.size + (s ++ t).length⟩ := by
    rw [String.append_assoc, String.length_append, Nat.add_assoc]
  cases limit with
  | none => exact congrArg Except.ok hsum
  | some n =>
    rw [put_some, put_some, String.length_append]
    by_cases hs : o.size + s.length ≤ n
    · rw [if_pos hs, ok_bind, put_some, hsum, String.append_assoc, Nat.add_assoc,
        String.length_append]
    · have hsize := ho.size
      have hcut : cutTo n (o.text ++ (s ++ t)) = cutTo n (o.text ++ s) := by
        have hn : n ≤ (o.text ++ s).toList.length := by
          rw [String.length_toList, String.length_append]
          omega
        rw [← String.append_assoc, cutTo, cutTo, String.toList_append (s := o.text ++ s),
          Text.takeTo_natCast _ hn, Text.takeTo_natCast _ (by rw [List.length_append]; omega),
          List.take_append_of_le_length hn]
      rw [if_neg hs, if_neg (by omega), hcut]
      rfl

end Output

namespace Graph
variable {g : Graph}

/-- The text of a value by recursion on the value. The text of a parameter may fail. -/
def plain (g : Graph) (r : Ref) : Except Failure String :=
  have parts := g.forall_fields_lt r
  match h : g.get r with
  | .text s => .ok s
  | .rule R => .ok R.tag
  | .bottom => .ok "⊥"
  | .base n => .ok (g.nameText r n)
  | .var n => .ok (g.nameText r n)
  | .arrow a b =>
    have : a < r ∧ b < r := by simpa [h, Cell.fields] using parts
    return "(" ++ (← g.plain a) ++ " -> " ++ (← g.plain b) ++ ")"
  | .product a b =>
    have : a < r ∧ b < r := by simpa [h, Cell.fields] using parts
    return "(" ++ (← g.plain a) ++ " × " ++ (← g.plain b) ++ ")"
  | .sum a b =>
    have : a < r ∧ b < r := by simpa [h, Cell.fields] using parts
    return "(" ++ (← g.plain a) ++ " + " ++ (← g.plain b) ++ ")"
  | .pair a b =>
    have : a < r ∧ b < r := by simpa [h, Cell.fields] using parts
    return "(cons " ++ (← g.plain a) ++ " " ++ (← g.plain b) ++ ")"
  | .inl a =>
    have : a < r := by simpa [h, Cell.fields] using parts
    return "(inl " ++ (← g.plain a) ++ ")"
  | .inr a =>
    have : a < r := by simpa [h, Cell.fields] using parts
    return "(inr " ++ (← g.plain a) ++ ")"
  | .case a b c =>
    have : a < r ∧ b < r ∧ c < r := by simpa [h, Cell.fields] using parts
    return "(case " ++ (← g.plain a) ++ " " ++ (← g.plain b) ++ " " ++ (← g.plain c) ++ ")"
  | .fst a =>
    have : a < r := by simpa [h, Cell.fields] using parts
    return "(car " ++ (← g.plain a) ++ ")"
  | .snd a =>
    have : a < r := by simpa [h, Cell.fields] using parts
    return "(cdr " ++ (← g.plain a) ++ ")"
  | .lambda x a b =>
    have : a < r ∧ b < r := by
      have : x < r ∧ a < r ∧ b < r := by simpa [h, Cell.fields] using parts
      exact this.2
    return "(λ (" ++ (← g.str x) ++ " : " ++ (← g.plain a) ++ ") " ++ (← g.plain b) ++ ")"
  | .abort a =>
    have : a < r := by simpa [h, Cell.fields] using parts
    return "(abort " ++ (← g.plain a) ++ ")"
  | _ => .ok (g.quote r)
termination_by r
decreasing_by all_goals grind

/-- The text of a piece. -/
def pieceText (g : Graph) : Piece → Except Failure String
  | .lit s => pure s
  | .part r => g.plain r

/-- The text of a value is that of its pieces, one after the other. -/
theorem plain_eq_pieces (r : Ref) :
    g.plain r = (do return String.join (← (← g.pieces g.str r).mapM g.pieceText)) := by
  rw [plain]
  split
  case h_15 x a b hc =>
    simp only [pieces, hc]
    cases g.str x with
    | error f => rfl
    | ok w => simp [pieceText, String.append_assoc]
  case h_17 =>
    have hps : g.pieces g.str r = .ok [.lit (g.quote r)] := by
      rw [pieces]
      split <;> simp_all
    rw [hps]
    simp [pieceText]
    rfl
  all_goals
    rename_i hc
    simp [pieces, hc, pieceText, String.append_assoc]
  all_goals rfl

section
variable {limit : Option Nat}

theorem emitPieces_of_texts {ps : List Piece} {ts : List String} (h : ps.mapM g.pieceText = .ok ts)
    (ih : ∀ r, .part r ∈ ps → ∀ s o, g.plain r = .ok s → o.Within limit →
      g.emit g.str (signed limit) r o = o.put (signed limit) s)
    {o : Output} (ho : o.Within limit) :
    g.emitPieces g.str (signed limit) ps o = o.put (signed limit) (String.join ts) := by
  induction ps generalizing ts o with
  | nil =>
    obtain rfl := Except.ok.inj h
    exact ho.put_empty.symm
  | cons p ps ih' =>
    rw [List.mapM_cons] at h
    obtain ⟨t, ht, h⟩ := bind_eq_ok.mp h
    obtain ⟨ts', hts, h⟩ := bind_eq_ok.mp h
    obtain rfl := Except.ok.inj h
    have hrest : (o.put (signed limit) t >>= fun o => g.emitPieces g.str (signed limit) ps o) =
        o.put (signed limit) (String.join (t :: ts')) := by
      rw [String.join_cons, ← ho.put_put]
      cases hput : o.put (signed limit) t with
      | error e => rfl
      | ok o' => exact ih' hts (fun r hr => ih r (List.mem_cons_of_mem p hr)) (ho.put hput)
    cases p with
    | lit s =>
      obtain rfl := Except.ok.inj ht
      exact hrest
    | part r =>
      show (g.emit g.str (signed limit) r o >>= fun o => g.emitPieces g.str (signed limit) ps o) = _
      rw [ih r List.mem_cons_self t o ht ho]
      exact hrest

/-- Printing a value is printing its plain text at once. -/
theorem emit_of_plain {r : Ref} {s : String} (h : g.plain r = .ok s) {o : Output}
    (ho : o.Within limit) : g.emit g.str (signed limit) r o = o.put (signed limit) s := by
  induction r using Nat.strongRecOn generalizing s o with
  | ind r ih =>
    rw [plain_eq_pieces] at h
    obtain ⟨ps, hps, h⟩ := bind_eq_ok.mp h
    obtain ⟨ts, hts, h⟩ := bind_eq_ok.mp h
    obtain rfl := Except.ok.inj h
    rw [emit_of_pieces hps]
    exact emitPieces_of_texts hts
      (fun q hq _ _ hs ho => ih q (lt_of_part_mem_pieces hps hq) hs ho) ho

theorem finish_put (s : String) : finish (Output.empty.put (signed limit) s) =
    .ok (cut (signed limit) s) := by
  cases limit with
  | none => exact congrArg Except.ok (String.empty_append (s := s))
  | some n =>
    rw [Output.put_some]
    show finish (if 0 + s.length ≤ n then .ok ⟨"" ++ s, 0 + s.length⟩ else
      .error (.cut (cutTo n ("" ++ s) ++ ellipsis))) = .ok (if (s.length : Int) > n then _ else _)
    rw [String.empty_append]
    by_cases h : s.length ≤ n
    · rw [if_pos (by omega), if_neg (by omega)]
      rfl
    · rw [if_neg (by omega), if_pos (by omega)]
      rfl

theorem showValue_of_plain (limit : Option Nat) {r : Ref} {s : String} (h : g.plain r = .ok s) :
    g.showValue (signed limit) r = .ok (cut (signed limit) s) := by
  rw [showValue, showWith, emit_of_plain h (Output.within_empty limit), finish_put]

end

theorem emitPieces_of_error {ps : List Piece} {f : Failure} (h : ps.mapM g.pieceText = .error f)
    (ih : ∀ r, .part r ∈ ps → g.plain r = .error f → ∀ o : Output, o.Within none →
      g.emit g.str none r o = .error (.failure f)) {o : Output} (ho : o.Within none) :
    g.emitPieces g.str none ps o = .error (.failure f) := by
  induction ps generalizing o with
  | nil => cases h
  | cons p ps ih' =>
    rw [List.mapM_cons] at h
    have hrest : ∀ t, g.pieceText p = .ok t →
        (o.put none t >>= fun o => g.emitPieces g.str none ps o) = .error (.failure f) := by
      intro t ht
      rw [ht, ok_bind] at h
      obtain h | ⟨ts, -, h⟩ := bind_eq_error.mp h
      · exact ih' h (fun r hr => ih r (List.mem_cons_of_mem p hr)) (ho.put (s := t) rfl)
      · cases h
    cases p with
    | lit s => exact hrest s rfl
    | part r =>
      show (g.emit g.str none r o >>= fun o => g.emitPieces g.str none ps o) = _
      cases hr : g.plain r with
      | error f' =>
        obtain rfl : f' = f := by
          rw [pieceText, hr] at h
          exact Except.error.inj h
        rw [ih r List.mem_cons_self hr o ho]
        rfl
      | ok t =>
        rw [show g.emit g.str none r o = o.put none t from emit_of_plain hr ho]
        exact hrest t hr

/-- Without a limit, what has no plain text is not printed. -/
theorem emit_of_plain_error {r : Ref} {f : Failure} (h : g.plain r = .error f) {o : Output}
    (ho : o.Within none) : g.emit g.str none r o = .error (.failure f) := by
  induction r using Nat.strongRecOn generalizing o with
  | ind r ih =>
    rw [plain_eq_pieces] at h
    cases hps : g.pieces g.str r with
    | error f' =>
      rw [hps] at h
      obtain rfl : f' = f := Except.error.inj h
      rw [emit]
      split
      case h_1 f'' h' =>
        obtain rfl : f' = f'' := Except.error.inj (hps.symm.trans h')
        rfl
      case h_2 h' =>
        rw [hps] at h'
        cases h'
    | ok ps =>
      rw [hps, ok_bind] at h
      rw [emit_of_pieces hps]
      obtain h | ⟨ts, -, h⟩ := bind_eq_error.mp h
      · exact emitPieces_of_error h
          (fun q hq hf o ho => ih q (lt_of_part_mem_pieces hps hq) hf ho) ho
      · cases h

/-- Without a limit, the plain text is printed. -/
theorem showValue_none (r : Ref) : g.showValue none r = g.plain r := by
  cases h : g.plain r with
  | ok s => exact showValue_of_plain none h
  | error f =>
    rw [showValue, showWith, emit_of_plain_error h (Output.within_empty none)]
    rfl

theorem showValue_some {r : Ref} {s : String} (h : g.showValue none r = .ok s) (n : Nat) :
    g.showValue (some n) r = .ok (clip n s) := by
  rw [showValue_none] at h
  rw [← cut_eq_clip]
  exact showValue_of_plain (some n) h

end Graph

/-! ## texts that a limit does not tell apart -/

/-- Two texts are equal, or have `n` characters in common and both go on. -/
def SameUpTo (n : Nat) (s t : String) : Prop :=
  s = t ∨ ∃ u a b : String, n ≤ u.length ∧ 0 < a.length ∧ 0 < b.length ∧ s = u ++ a ∧ t = u ++ b

namespace SameUpTo
variable {n : Nat} {s t s' t' : String}

theorem refl (s : String) : SameUpTo n s s := .inl rfl

theorem append (h : SameUpTo n s t) (h' : SameUpTo n s' t') : SameUpTo n (s ++ s') (t ++ t') := by
  rcases h with rfl | ⟨u, a, b, hu, ha, hb, rfl, rfl⟩
  · rcases h' with rfl | ⟨u, a, b, hu, ha, hb, rfl, rfl⟩
    · exact refl _
    · refine .inr ⟨s ++ u, a, b, ?_, ha, hb, String.append_assoc.symm, String.append_assoc.symm⟩
      rw [String.length_append]
      omega
  · refine .inr ⟨u, a ++ s', b ++ t', hu, ?_, ?_, String.append_assoc, String.append_assoc⟩
    · rw [String.length_append]
      omega
    · rw [String.length_append]
      omega

theorem clip_left (n : Nat) (s : String) : SameUpTo n (clip n s) s := by
  unfold clip
  by_cases h : s.length ≤ n
  · rw [if_pos h]
    exact refl s
  · rw [if_neg h]
    refine .inr ⟨String.ofList (s.toList.take n), "…", String.ofList (s.toList.drop n), ?_, ?_, ?_,
      rfl, ?_⟩
    · rw [String.length_ofList, List.length_take, String.length_toList]
      omega
    · decide
    · rw [String.length_ofList, List.length_drop, String.length_toList]
      omega
    · rw [← String.ofList_append, List.take_append_drop, String.ofList_toList]

theorem commas {l l' : List String} (h : List.Forall₂ (SameUpTo n) l l') :
    SameUpTo n (NaturalDeduction.commas l) (NaturalDeduction.commas l') := by
  induction h with
  | nil => exact refl _
  | @cons s t l l' hst hl ih =>
    cases hl with
    | nil =>
      rw [NaturalDeduction.commas, NaturalDeduction.commas, String.intercalate_singleton,
        String.intercalate_singleton]
      exact hst
    | cons =>
      rw [NaturalDeduction.commas, NaturalDeduction.commas, String.intercalate_cons_cons,
        String.intercalate_cons_cons]
      exact (hst.append (refl ", ")).append ih

/-- A limit cuts them to the same text. -/
theorem clip_eq (h : SameUpTo n s t) : clip n s = clip n t := by
  rcases h with rfl | ⟨u, a, b, hu, ha, hb, rfl, rfl⟩
  · rfl
  · have htake : ∀ c : String, (u ++ c).toList.take n = u.toList.take n := by
      intro c
      rw [String.toList_append, List.take_append_of_le_length (by rwa [String.length_toList])]
    have hlong : ∀ c : String, 0 < c.length → ¬ (u ++ c).length ≤ n := by
      intro c hc
      rw [String.length_append]
      omega
    rw [clip, clip, if_neg (hlong a ha), if_neg (hlong b hb), htake, htake]

end SameUpTo

namespace Graph
variable {g : Graph}

/-! ## environments -/

theorem exists_mapM_forall₂ {ε α β : Type} {R : β → β → Prop} {f k : α → Except ε β} {l : List α}
    {bs : List β} (h : ∀ a b, f a = .ok b → ∃ b', k a = .ok b' ∧ R b' b) (hl : l.mapM f = .ok bs) :
    ∃ bs', l.mapM k = .ok bs' ∧ List.Forall₂ R bs' bs := by
  induction l generalizing bs with
  | nil =>
    obtain rfl := Except.ok.inj hl
    exact ⟨[], rfl, .nil⟩
  | cons a l ih =>
    rw [List.mapM_cons] at hl
    obtain ⟨b, hb, hl⟩ := bind_eq_ok.mp hl
    obtain ⟨bs, hbs, hl⟩ := bind_eq_ok.mp hl
    obtain rfl := Except.ok.inj hl
    obtain ⟨b', hb', hr⟩ := h a b hb
    obtain ⟨bs', hbs', hrs⟩ := ih hbs
    refine ⟨b' :: bs', ?_, .cons hr hrs⟩
    rw [List.mapM_cons, hb', ok_bind, hbs']
    rfl

/-- An environment whose types are cut before it is cut to the same text as without. -/
theorem showEnv_some {e : Ref} {s : String} (h : g.showEnv none e = .ok s) (n : Nat) :
    ∃ body, s = "\x7b" ++ body ++ "\x7d" ∧
      g.showEnv (some n) e = .ok ("\x7b" ++ clip n body ++ "\x7d") := by
  unfold showEnv showEnvWith at h ⊢
  cases he : g.get e with
  | env bs =>
    simp only [he] at h ⊢
    unfold showBindingsWith at h ⊢
    obtain ⟨es, hes, h⟩ := bind_eq_ok.mp h
    obtain ⟨parts, hparts, h⟩ := bind_eq_ok.mp h
    obtain rfl := Except.ok.inj h
    refine ⟨commas parts, rfl, ?_⟩
    obtain ⟨parts', hparts', hagree⟩ := exists_mapM_forall₂ (R := SameUpTo n) (k := fun e => do
      let name ← g.str e.1
      let ty ← g.showWith g.str (some n) e.2
      return name ++ " : " ++ ty) (fun a b hb => by
        obtain ⟨name, hname, hb⟩ := bind_eq_ok.mp hb
        obtain ⟨ty, hty, hb⟩ := bind_eq_ok.mp hb
        obtain rfl := Except.ok.inj hb
        have hcut : g.showWith g.str (some n) a.2 = .ok (clip n ty) := showValue_some hty n
        refine ⟨name ++ " : " ++ clip n ty, ?_, (SameUpTo.refl _).append (.clip_left n ty)⟩
        rw [hname, ok_bind, hcut]
        rfl) hparts
    rw [hes, ok_bind, hparts', ok_bind, cut_eq_clip, (SameUpTo.commas hagree).clip_eq]
    rfl
  | _ =>
    simp only [he] at h
    cases h

/-- A value in which every parameter is a text. Nothing else is asked of it. -/
inductive Spelled (g : Graph) : Ref → Prop
  | intro {r : Ref} (param : ∀ x a b, g.get r = .lambda x a b → ∃ w, g.text? x = some w)
      (parts : ∀ p ∈ (g.get r).parts, Spelled g p.2) : Spelled g r

theorem Loose.spelled {r : Ref} (h : g.Loose r) : g.Spelled r := by
  induction r using Nat.strongRecOn with
  | ind r ih =>
    refine .intro (fun x a b hc => ?_) fun p hp => ?_
    · obtain ⟨n, -, hx⟩ := exists_name (h.label (x := x) (by simp [hc, Cell.labels]))
      exact ⟨n.word, hx⟩
    · obtain ⟨hk, hmem⟩ := Cell.mem_refs_of_mem_parts hp
      exact ih p.2 (lt_of_mem_refs hk hmem) (h.part hp)

theorem Spelled.exists_plain {r : Ref} (h : g.Spelled r) : ∃ s, g.plain r = .ok s := by
  induction h with
  | @intro r param _ ih =>
    have hps : ∃ ps, g.pieces g.str r = .ok ps := by
      unfold pieces
      split
      case h_15 x a b hc =>
        obtain ⟨w, hw⟩ := param x a b hc
        rw [str_of_text? hw]
        exact ⟨_, rfl⟩
      all_goals exact ⟨_, rfl⟩
    obtain ⟨ps, hps⟩ := hps
    have hts : ∃ ts, ps.mapM g.pieceText = .ok ts := by
      refine exists_mapM_ok fun p hp => ?_
      cases p with
      | lit s => exact ⟨s, rfl⟩
      | part q =>
        obtain ⟨ρ, hq⟩ := mem_parts_of_piece hps hp
        exact ih (ρ, q) hq
    obtain ⟨ts, hts⟩ := hts
    refine ⟨String.join ts, ?_⟩
    rw [plain_eq_pieces, hps, ok_bind, hts]
    rfl

theorem exists_showEnv_none {e : Ref} {bs : List (Ref × Ref)} (he : g.get e = .env bs)
    (hnames : ∀ b ∈ bs, ∃ w, g.text? b.1 = some w) (htypes : ∀ b ∈ bs, g.Spelled b.2) :
    ∃ s, g.showEnv none e = .ok s := by
  obtain ⟨es, hes, hperm⟩ := sortByName_of_texts hnames
  obtain ⟨parts, hparts⟩ := exists_mapM_ok (l := es) (f := fun b => do
    let name ← g.str b.1
    let ty ← g.showWith g.str none b.2
    return name ++ " : " ++ ty) fun b hb => by
      have hb' : b ∈ bs := hperm.mem_iff.mp hb
      obtain ⟨w, hw⟩ := hnames b hb'
      obtain ⟨s, hs⟩ := (htypes b hb').exists_plain
      have hshow : g.showWith g.str none b.2 = .ok s := (showValue_none b.2).trans hs
      rw [str_of_text? hw, ok_bind, hshow]
      exact ⟨_, rfl⟩
  rw [showEnv, showEnvWith, he]
  show ∃ s, g.showBindingsWith g.str none bs = .ok s
  rw [showBindingsWith, hes, ok_bind, hparts]
  exact ⟨_, rfl⟩

/-- What printing with a limit of `n` characters has to do with printing without one. -/
structure CutsTo (g : Graph) (n : Nat) : Prop where
  /-- without a limit, a value is printed as its plain text -/
  full : ∀ r, g.showValue none r = g.plain r
  /-- a value has one, unless a parameter stands in the way -/
  exists_full : ∀ r, g.Spelled r → ∃ s, g.plain r = .ok s
  /-- in a well-formed type or term none does -/
  spelled : ∀ ρ r, g.WellFormed ρ r → g.Spelled r
  /-- with a limit, this text is cut -/
  value : ∀ r s, g.plain r = .ok s → g.showValue (some n) r = .ok (clip n s)
  /-- an environment with names is printed -/
  exists_env : ∀ e bs, g.get e = .env bs → (∀ b ∈ bs, ∃ w, g.text? b.1 = some w) →
    (∀ b ∈ bs, g.Spelled b.2) → ∃ s, g.showEnv none e = .ok s
  /-- with a limit, what stands between the braces is cut -/
  env : ∀ e s, g.showEnv none e = .ok s → ∃ body, s = "\x7b" ++ body ++ "\x7d" ∧
    g.showEnv (some n) e = .ok ("\x7b" ++ clip n body ++ "\x7d")

/-- **Printing with a limit is printing without one, cut.** The text of a type or a term with a limit
is its plain text cut to the limit, and the text of an environment with a limit is what stands
between its braces without one, cut to the limit, though the types in it are cut before. -/
theorem limited_printing (g : Graph) (n : Nat) : g.CutsTo n where
  full := showValue_none
  exists_full _ h := h.exists_plain
  spelled _ _ h := h.loose.spelled
  value r _ h := showValue_some ((showValue_none r).trans h) n
  exists_env _ _ := exists_showEnv_none
  env _ _ h := showEnv_some h n

end Graph

end NaturalDeduction
