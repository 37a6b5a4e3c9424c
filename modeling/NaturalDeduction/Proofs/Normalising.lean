import NaturalDeduction.Proofs.Alike

/-!
# Normalised proofs

What a run prints of a proof is a proof: it is read as a derivation that is alike, it is printed as
itself, and it gets the same verdict.

* `Derivation.printed`    what is printed of a derivation;
* `exists_printed`        it is read back, and printed as itself;
* `ReturnsAtEnds`         the comments of a text hold carriage returns at their ends only;
* `Layout.unify`          such a text says the same once its line ends are unified;
* `printed_keeps_outcome`   a run on the printed text ends as a run on the proof does.
-/

namespace NaturalDeduction

open Source Text

/-- What is printed of a derivation. -/
def Derivation.printed (d : Derivation) : Except Failure String :=
  let (g, tree) := Graph.addDerivation d .empty
  g.showDerivation 0 tree

theorem printed_of_alike {d d' : Derivation} (hdd' : d.Alike d') (hd : d.Named) (hd' : d'.Named) :
    d.printed = d'.printed :=
  (Graph.addDerivation_spec d .empty).2.showDerivation_eq hdd'
    (Graph.addDerivation_spec d' .empty).2 hd hd'

theorem OneLine.return_not_mem {s : String} (h : OneLine s) : '\r' ∉ s.toList :=
  fun hr => (h '\r' hr).2 rfl

/-- No carriage return is printed of a derivation, unless a text in the graph has one. -/
theorem Graph.IsDerivation.return_not_mem {g : Graph} (hg : g.Unbroken) {n : Nat} :
    ∀ {x : Ref} {d : Derivation} {indent : Int} {acc s : String}, g.IsDerivation x d → d.Named →
      '\r' ∉ acc.toList → g.showTreeWith g.str n indent x acc = .ok s → '\r' ∉ s.toList := by
  induction n with
  | zero =>
    intro x d indent acc s _ _ hacc hs
    rw [← Except.ok.inj hs]
    exact hacc
  | succ n ih =>
    intro x d indent acc s h hd hacc hs
    cases h with
    | @node _ tag c p R q ps ds hget hR hc hp hps =>
      obtain ⟨hq, hds⟩ := hd
      obtain ⟨j, hj, hw, -⟩ := hc.spec hq
      have htag : g.str tag = .ok R.tag := str_of_text? (by rw [text?, hR]; rfl)
      rw [showTreeWith, hget] at hs
      simp only [htag, printedPremises, hp, ok_bind] at hs
      obtain ⟨line, hline, hs⟩ := bind_eq_ok.mp hs
      obtain ⟨t, ht, hs⟩ := bind_eq_ok.mp hs
      have hline : '\r' ∉ line.toList := (tidy_showSequent hg hj hw.apt line hline).return_not_mem
      have hR : '\r' ∉ R.tag.toList := (oneLine_tag R).return_not_mem
      have hstart : '\r' ∉ (acc ++ indentation indent ++ "(" ++ R.tag ++ " " ++ line).toList := by
        simp [indentation, hacc, hR, hline]
      obtain ⟨hend, -⟩ := foldlM_steps (I := fun s => '\r' ∉ s.toList) (E := fun _ _ => True)
        (P := fun _ _ => True) (fun _ => trivial) (fun _ _ _ _ _ => trivial)
        (fun _ _ _ _ _ => trivial) (fun y hy s s' hs hstep => by
          obtain ⟨e, he, hye⟩ := exists_mem_of_forall₂ hps y hy
          refine ⟨ih hye (hds e he) ?_ hstep, trivial, trivial⟩
          simpa using hs) hstart ht
      rw [← Except.ok.inj hs]
      simpa using hend

/-- **What is printed of a proof is a proof**: it is read as a derivation that is alike, and printed as
itself. -/
theorem exists_printed {src : String} {d : Derivation} (hd : parseDerivation src = .ok d) :
    ∃ T d', d.printed = .ok T ∧ parseDerivation T = .ok d' ∧ d.Alike d' ∧ d'.printed = .ok T ∧
      '\r' ∉ T.toList := by
  have hplain := isPlain_of_parseDerivation hd
  have hN := Derivation.named_of_isPlain hplain
  obtain ⟨-, htree⟩ := Graph.addDerivation_spec d .empty
  have hroot := htree.plain hplain
  obtain ⟨T, d', hT, hw, hd'⟩ := hroot.show (Nat.lt_succ_of_lt htree.lt_size) 0
  have hprinted : d.printed = .ok T := (hT "").trans (congrArg Except.ok (String.empty_append))
  have hparse : parseDerivation T = .ok d' :=
    (parseWith_eq_ok_iff yields_readDerivation_iff).mpr hw.exists_tree
  have halike := hroot.alike hd'
  have hg := Graph.unbroken_addDerivation d (fun x hx => Graph.oneLine_of_isPlain (hplain x hx))
    Graph.unbroken_empty
  refine ⟨T, d', hprinted, hparse, halike, ?_, htree.return_not_mem hg hN (by simp) hprinted⟩
  have hN' := Derivation.named_of_isPlain (isPlain_of_parseDerivation hparse)
  rw [← printed_of_alike halike hN hN', hprinted]

/-! ## line ends -/

namespace Text

theorem unifyNewlines_append {s : List Char} (hs : '\r' ∉ s) (cs : List Char) :
    unifyNewlines (s ++ cs) = s ++ unifyNewlines cs := by
  induction s with
  | nil => rfl
  | cons c s ih =>
    obtain ⟨hc, hs⟩ : '\r' ≠ c ∧ '\r' ∉ s := by simpa using hs
    rw [List.cons_append, unifyNewlines.eq_def]
    split <;> simp_all

theorem unifyNewlines_of_not_mem {cs : List Char} (h : '\r' ∉ cs) : unifyNewlines cs = cs := by
  have happend := unifyNewlines_append h []
  rw [List.append_nil] at happend
  rw [happend, unifyNewlines, List.append_nil]

theorem unifyNewlines_return {c : Char} (hc : c ≠ '\n') (cs : List Char) :
    unifyNewlines ('\r' :: c :: cs) = '\n' :: unifyNewlines (c :: cs) := by
  rw [unifyNewlines]
  rintro r hr
  exact hc (List.cons.inj hr).1

/-- The head of a text changes only if it is a carriage return. -/
theorem head?_unifyNewlines (cs : List Char) :
    ∀ d ∈ (unifyNewlines cs).head?, d = '\n' ∨ d ∈ cs.head? := by
  rw [unifyNewlines.eq_def]
  split <;> simp_all

end Text

namespace Source

/-- In a comment, carriage returns stand at its end only: no other character of the comment follows. -/
def ReturnsAtEnds (cs : List Char) : Prop :=
  ∀ a c b, cs = a ++ '#' :: (c ++ '\r' :: b) → '\n' ∉ c →
    ∀ d ∈ (b.dropWhile (· == '\r')).head?, d = '\n'

theorem ReturnsAtEnds.of_append {s cs : List Char} (h : ReturnsAtEnds (s ++ cs)) :
    ReturnsAtEnds cs := by
  intro a c b hcs
  exact h (s ++ a) c b (by rw [hcs, List.append_assoc])

theorem Layout.unify_return {cs : List Char} {ls : List Lexeme}
    (h : Layout (unifyNewlines cs) ls) : Layout (unifyNewlines ('\r' :: cs)) ls := by
  cases cs with
  | nil => exact .blank (.inr rfl) h
  | cons c cs =>
    by_cases hc : c = '\n'
    · subst hc
      exact h
    · rw [unifyNewlines_return hc]
      exact .blank (.inr rfl) h

/-- The characters of a comment before its carriage returns. -/
theorem ReturnsAtEnds.comment {w cs : List Char} (h : ReturnsAtEnds ('#' :: (w ++ cs)))
    (hw : '\n' ∉ w) : ∃ u v, w = u ++ v ∧ '\r' ∉ u ∧ ∀ d ∈ v, d = '\r' := by
  obtain ⟨u, v, rfl, hu, hhead⟩ : ∃ u v, w = u ++ v ∧ '\r' ∉ u ∧ ∀ d ∈ v.head?, d = '\r' := by
    refine ⟨w.takeWhile (· != '\r'), w.dropWhile (· != '\r'),
      List.takeWhile_append_dropWhile.symm, fun hr => ?_, fun d hd => ?_⟩
    · exact absurd (List.mem_takeWhile_imp hr) (by simp)
    · simpa using head_dropWhile w d hd
  refine ⟨u, v, rfl, hu, ?_⟩
  cases v with
  | nil => exact nofun
  | cons c v =>
    obtain rfl : c = '\r' := hhead c rfl
    refine List.forall_mem_cons.mpr ⟨rfl, fun d hd => ?_⟩
    have hnext := h [] u (v ++ cs) (by simp) fun hn => hw (List.mem_append_left _ hn)
    -- another character after a carriage return would be the end of the comment
    cases hrest : v.dropWhile (· == '\r') with
    | nil => simpa using List.dropWhile_eq_nil_iff.mp hrest d hd
    | cons e r =>
      rw [List.dropWhile_append, hrest] at hnext
      obtain rfl : e = '\n' := hnext e rfl
      have he : '\n' ∈ v := (List.dropWhile_sublist _).mem (hrest ▸ List.mem_cons_self)
      exact absurd (List.mem_append_right u (List.mem_cons_of_mem _ he)) hw

/-- A text whose comments hold carriage returns at their ends only says the same once its line ends are
unified. -/
theorem Layout.unify {cs : List Char} {ls : List Lexeme} (h : Layout cs ls)
    (hr : ReturnsAtEnds cs) : Layout (unifyNewlines cs) ls := by
  induction h with
  | done => exact .done
  | @blank c cs ls hc _ ih =>
    have ih := ih (hr.of_append (s := [c]))
    by_cases hcr : c = '\r'
    · subst hcr
      exact ih.unify_return
    · rw [← List.singleton_append, unifyNewlines_append (by simpa using Ne.symm hcr)]
      exact .blank hc ih
  | @comment w cs ls hw hcs _ ih =>
    have ih := ih (hr.of_append (s := '#' :: w))
    obtain ⟨u, v, rfl, hu, hv⟩ := hr.comment hw
    have hrest : Layout (unifyNewlines (v ++ cs)) ls := by
      clear hw hr
      induction v with
      | nil => exact ih
      | cons c v ihv =>
        obtain ⟨rfl, hv'⟩ := List.forall_mem_cons.mp hv
        exact (ihv hv').unify_return
    have hhead : ∀ d ∈ (unifyNewlines (v ++ cs)).head?, d = '\n' := by
      intro d hd
      obtain rfl | hd' := head?_unifyNewlines (v ++ cs) d hd
      · rfl
      · cases v with
        | nil => exact hcs d hd'
        | cons c v =>
          obtain rfl : c = d := Option.some.inj hd'
          rw [hv c List.mem_cons_self] at hd
          exact absurd (List.mem_of_mem_head? hd) (not_mem_unifyNewlines _)
    have hstart : '\r' ∉ '#' :: u := by simp [hu]
    rw [List.append_assoc, ← List.cons_append, unifyNewlines_append hstart]
    exact .comment (fun hn => hw (List.mem_append_left v hn)) hhead hrest
  | @symbol s cs k ls hs _ ih =>
    have hsymbols : ∀ p ∈ symbols, '\r' ∉ p.1 := by decide
    rw [unifyNewlines_append (hsymbols _ hs)]
    exact .symbol hs (ih hr.of_append)
  | @word c w cs ls hc hw hcs _ ih =>
    have hword : '\r' ∉ c :: w := by
      intro hr
      obtain rfl | hr := List.mem_cons.mp hr
      · exact absurd hc (by decide)
      · exact absurd (hw _ hr) (by decide)
    rw [← List.cons_append, unifyNewlines_append hword]
    refine .word hc hw (fun d hd => ?_) (ih (hr.of_append (s := c :: w)))
    obtain rfl | hd := head?_unifyNewlines cs d hd
    · decide
    · exact hcs d hd

end Source

/-! ## runs -/

namespace CommandLine

/-- A text as it is read from a file. -/
def asRead (s : String) : String := String.ofList (unifyNewlines s.toList)

theorem decode_toUTF8 (s : String) : decode s.toUTF8 = some (asRead s) := by
  have hs : String.fromUTF8? s.toUTF8 = some s := dif_pos s.isValidUTF8
  rw [decode, hs]
  rfl

theorem asRead_of_not_mem {s : String} (h : '\r' ∉ s.toList) : asRead s = s := by
  rw [asRead, unifyNewlines_of_not_mem h, String.ofList_toList]

theorem parse_asRead {src : String} {d : Derivation} (hd : parseDerivation src = .ok d)
    (hr : ReturnsAtEnds src.toList) : parseDerivation (asRead src) = .ok d := by
  have hiff := @parseWith_eq_ok_iff .derivation _ yields_readDerivation_iff
  obtain ⟨t, hlayout, hv⟩ := hiff.mp hd
  refine hiff.mpr ⟨t, ?_, hv⟩
  rw [asRead, String.toList_ofList]
  exact hlayout.unify hr

/-- Proofs whose texts are checked alike make runs that end alike. -/
theorem runOn_congr {o : Options} {bytes bytes' : ByteArray} {src src' : String}
    (h : decode bytes = some src) (h' : decode bytes' = some src')
    (hsame : ∀ limits, runOnText o limits src = runOnText o limits src') :
    runOn o (.ok bytes) = runOn o (.ok bytes') := by
  cases hn : o.maxDepth with
  | none =>
    unfold runOn
    rw [hn]
  | some n =>
    cases hlimits : Limits.ofInt n n.repr with
    | error f =>
      unfold runOn
      simp only [hn, hlimits]
    | ok limits => rw [runOn_of_decode hn hlimits h, runOn_of_decode hn hlimits h', hsame]

/-- **Normalising a proof does not change its verdict.** What is printed of a proof is read, and printed
as itself. A file is read with its line ends unified; let this not change what the proof says, as is so
if its comments hold carriage returns at their ends only. Then a run on the printed text ends as a run
on the proof does, for all arguments: with the same status, the same text printed and the same log. -/
theorem printed_keeps_outcome {src : String} {d : Derivation} (hd : parseDerivation src = .ok d) :
    ∃ T d', d.printed = .ok T ∧ parseDerivation T = .ok d' ∧ d'.printed = .ok T ∧
      (ReturnsAtEnds src.toList → parseDerivation (asRead src) = .ok d) ∧
      (parseDerivation (asRead src) = .ok d →
        ∀ (args : List String) (read read' : String → Except ReadError ByteArray)
          (input input' : ByteArray),
          (∀ o, Options.parse args = .ok o → o.content read input = .ok src.toUTF8 ∧
            o.content read' input' = .ok T.toUTF8) →
          run read input args = run read' input' args) := by
  obtain ⟨T, d', hT, hd', halike, hT', hr⟩ := exists_printed hd
  refine ⟨T, d', hT, hd', hT', parse_asRead hd, ?_⟩
  intro hread args read read' input input' hfiles
  cases ho : Options.parse args with
  | error why => rw [run, run, ho]
  | ok o =>
    obtain ⟨hsrc, htext⟩ := hfiles o ho
    rw [run_of_parse ho, run_of_parse ho, hsrc, htext]
    refine runOn_congr (decode_toUTF8 src) (decode_toUTF8 T) fun limits => ?_
    rw [asRead_of_not_mem hr]
    exact runOnText_of_alike o limits hread hd' halike

/-- The assumption is printed with the other spelling of the turnstile, and both texts end a run
alike. -/
theorem printed_assumption : ∃ T, assumptionNode.printed = .ok T ∧
    run (fun _ => .error .notFound) T.toUTF8 ["-", "--max-depth", "1"] =
      run (fun _ => .error .notFound) assumption.toUTF8 ["-", "--max-depth", "1"] := by
  obtain ⟨T, d', hT, -, -, hread, hrun⟩ := printed_keeps_outcome parse_assumption
  have hno : '#' ∉ assumption.toList := by decide
  have hreturns : ReturnsAtEnds assumption.toList := by
    intro a c b hcs
    rw [hcs] at hno
    exact absurd (List.mem_append_right a List.mem_cons_self) hno
  have hargs : Options.parse ["-", "--max-depth", "1"] = .ok ⟨"-", none, some 1, false, false⟩ := by
    decide +kernel
  refine ⟨T, hT, (hrun (hread hreturns) _ _ _ _ _ fun o ho => ?_).symm⟩
  obtain rfl := Except.ok.inj (hargs.symm.trans ho)
  exact ⟨rfl, rfl⟩

/-- An assumption with a comment, and in the comment a carriage return before a bracket. -/
def returning : String := "(Assm \x7bx : P\x7d |- x : P) # done\r("

/-- The text of the assumption is read, and what is printed of it is accepted; but in a file the bracket
stands on a line of its own, and the file is not read. -/
theorem run_returning : parseDerivation returning = .ok assumptionNode ∧
    ∃ T err err', assumptionNode.printed = .ok T ∧
      run (fun _ => .ok T.toUTF8) .empty ["p"] = .done 0 "Accept\n" err ∧
      run (fun _ => .ok returning.toUTF8) .empty ["p"] = .done 2 "" err' := by
  have hparse : parseDerivation returning = .ok assumptionNode :=
    parse_of_isAssumption (by decide +kernel)
  have hlimits : Limits.ofInt 10000 (10000 : Int).repr = .ok ⟨10000, by decide, _⟩ :=
    limits_of_pos (by decide) _
  obtain ⟨T, d', hT, hd', halike, -, hr⟩ := exists_printed hparse
  obtain ⟨v, echo, err, hrun, hquiet, hv⟩ := runOnText_spec (o := fileOnly)
    ⟨10000, by decide, (10000 : Int).repr⟩ parse_assumption (q := assumptionNode.conclusion) rfl
  obtain rfl : v = .accept := hv.accept_iff.mpr ⟨proves_assumption, by decide⟩
  obtain ⟨e, he⟩ : ∃ e, parseDerivation (asRead returning) = .error e := by
    have hnone : (parseDerivation (asRead returning)).toOption.isNone = true := by decide +kernel
    cases hp : parseDerivation (asRead returning) with
    | error e => exact ⟨e, rfl⟩
    | ok d =>
      rw [hp] at hnone
      cases hnone
  refine ⟨hparse, T, err, "" ++ syntaxLine e (asRead returning), hT, ?_, ?_⟩
  · rw [run_of_parse parse_fileOnly]
    show runOn fileOnly (.ok T.toUTF8) = _
    rw [runOn_of_decode rfl hlimits (decode_toUTF8 T), asRead_of_not_mem hr,
      ← runOnText_of_alike _ _ parse_assumption hd' halike, hrun, hquiet rfl]
    rfl
  · rw [run_of_parse parse_fileOnly]
    show runOn fileOnly (.ok returning.toUTF8) = _
    rw [runOn_of_decode rfl hlimits (decode_toUTF8 returning), runOnText, he]
    rfl

end CommandLine

end NaturalDeduction
