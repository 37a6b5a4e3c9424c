import NaturalDeduction.Proofs.Runs

/-!
# How a run exits

A run that has nothing to check says so on one line and exits with status 2, and any other run exits
with its verdict. But not everything that can go wrong is caught.

* `Options.Unfit`     there is nothing to check;
* `Options.Given`     what there is to check;
* `Options.Escapes`   a run goes wrong, and does not exit at all;
* `Options.Complains`   an exit with status 2;
* `runOn_cases`       one of the three, and how the run ends;
* `run_exit`          the exit status for all arguments and all contents of a file.
-/

namespace NaturalDeduction

open Source

/-! ## error lines -/

theorem oneLine_syntaxError (e : SyntaxError) (src : String) :
    OneLine (e.diagnostic src).text := by
  have hmessage : OneLine e.cause.message := by
    cases e.cause with
    | token => exact (by decide : OneLine "Unexpected token")
    | ending => exact (by decide : OneLine "Unexpected end of input")
    | character c => exact .append (by decide) (Text.oneLine_quote _)
    | duplicate name => exact .append (by decide) (Text.oneLine_quote name)
    | rule name => exact .append (by decide) (Text.oneLine_quote name)
  have hline := oneLine_natRepr (e.span.line src.toList)
  have hcolumn := oneLine_intRepr (e.span.column src.toList)
  have hsnippet := Text.oneLine_quote (String.ofList (e.span.extract src.toList))
  have hplace := ((hmessage.append (by decide : OneLine " @ ")).append hline).append
    (by decide : OneLine ":")
  exact ((hplace.append hcolumn).append (by decide : OneLine ": ")).append hsnippet

namespace CommandLine

/-- Either a depth is not positive, or there are limits with it. -/
theorem limits_cases (n : Int) (written : String) :
    (n ≤ 0 ∧ Limits.ofInt n written = .error .notPositive) ∨
      ∃ (m : Nat) (h : 0 < m), n = m ∧ Limits.ofInt n written = .ok ⟨m, h, written⟩ := by
  by_cases h : 0 < n.toNat
  · exact .inr ⟨n.toNat, h, by omega, dif_pos h⟩
  · exact .inl ⟨by omega, dif_neg h⟩

/-! ## what there is to check -/

section
variable (o : Options) (x : Except ReadError ByteArray)

/-- There is nothing to check, where `x` is what is read: the depth limit is not positive, the proof
cannot be read or is no text, or the proof or the goal does not follow the grammar. -/
inductive Options.Unfit : Prop where
  | depth {n : Int} (hn : o.maxDepth = some n) (h : n ≤ 0)
  | unread {e : ReadError} (h : x = .error e)
  | noText {bytes : ByteArray} (hx : x = .ok bytes) (h : decode bytes = none)
  | proof {bytes : ByteArray} {src : String} {e : SyntaxError} (hx : x = .ok bytes)
      (hsrc : decode bytes = some src) (h : parseDerivation src = .error e)
  | goal {text : String} {e : SyntaxError} (hgoal : o.goalText? = some text)
      (h : parseSequent text = .error e)

/-- A derivation is read, with a sequent to check it for and a positive depth limit. -/
structure Options.Given (n : Nat) (d : Derivation) (q : Sequent) : Prop where
  depth : o.maxDepth = some (n : Int)
  pos : 0 < n
  proof : ∃ bytes src, x = .ok bytes ∧ decode bytes = some src ∧ parseDerivation src = .ok d
  goal : o.Asks d q

/-- Something goes wrong that a run does not catch: the depth limit was given without a value, no
file can have the name of the proof, or the proof is no text. -/
inductive Options.Escapes : Prop where
  | depth (h : o.maxDepth = none)
  | name {n : Int} (hn : o.maxDepth = some n) (hpos : 0 < n) (h : x = .error .nullByte)
  | noText {n : Int} {bytes : ByteArray} (hn : o.maxDepth = some n) (hpos : 0 < n)
      (hx : x = .ok bytes) (h : decode bytes = none)

/-- An exit with status 2: nothing is printed but a line about the error, after the log. The line is
broken only by the name of a file that cannot be read. -/
structure Options.Complains (log line : String) : Prop where
  quiet : o.verbose = false → log = ""
  wholeLines : WholeLines log
  start : ∃ t, line = "error: " ++ t ∨ line = "syntax error: " ++ t
  oneLine : (∀ e, x = .error e → OneLine o.proof ∧ OneLine e.message) → OneLine line

end

theorem WholeLines.append {s t : String} (hs : WholeLines s) (ht : WholeLines t) :
    WholeLines (s ++ t) := by
  obtain rfl | ⟨u, rfl⟩ := ht
  · rw [String.append_empty]
    exact hs
  · exact .inr ⟨s ++ u, String.append_assoc.symm⟩

theorem wholeLines_logLine (o : Options) (place message : String) :
    WholeLines (logLine o place message) := by
  unfold logLine
  split
  case isTrue => exact .inr ⟨_, rfl⟩
  case isFalse => exact .inl rfl

theorem logLine_eq_empty {o : Options} (h : o.verbose = false) (place message : String) :
    logLine o place message = "" := by
  rw [logLine, h]
  rfl

section
variable {o : Options} {x : Except ReadError ByteArray}

/-- A text that does not follow the grammar makes a line, after the log of its readers. -/
theorem complains_syntax {log : String} (hquiet : o.verbose = false → log = "")
    (hlog : WholeLines log) (e : SyntaxError) (src : String) :
    o.Complains x log ("syntax error: " ++ (e.diagnostic src).text) :=
  ⟨hquiet, hlog, ⟨_, .inr rfl⟩, fun _ => .append (by decide) (oneLine_syntaxError e src)⟩

/-- A file that cannot be read makes a line with its name. -/
theorem complains_unread (o : Options) (e : ReadError) : o.Complains (.error e) ""
    ("error: " ++ ("cannot read " ++ o.proof ++ ": " ++ e.message)) := by
  refine ⟨fun _ => rfl, .inl rfl, ⟨_, .inl rfl⟩, fun h => ?_⟩
  obtain ⟨hproof, hmessage⟩ := h e rfl
  exact .append (by decide) (((OneLine.append (by decide) hproof).append (by decide)).append hmessage)

theorem runOn_of_unread {n : Int} {limits : Limits} {e : ReadError} (hn : o.maxDepth = some n)
    (hlimits : Limits.ofInt n n.repr = .ok limits) (he : e ≠ .nullByte) :
    runOn o (.error e) = .done 2 ""
      ("" ++ ("error: " ++ ("cannot read " ++ o.proof ++ ": " ++ e.message)) ++ "\n") := by
  have hline : runOn o (.error e) =
      .done 2 "" ("error: cannot read " ++ o.proof ++ ": " ++ e.message ++ "\n") := by
    unfold runOn
    simp only [hn, hlimits]
  rw [hline, String.empty_append]
  simp only [← String.append_assoc]
  rfl

/-- A text is checked, or there is an error in it or in the goal. -/
theorem runOnText_cases (o : Options) (limits : Limits) {bytes : ByteArray} {src : String}
    (hx : x = .ok bytes) (hsrc : decode bytes = some src) :
    (∃ d q, parseDerivation src = .ok d ∧ o.Asks d q) ∨
      o.Unfit x ∧ ∃ log line, runOnText o limits src = .done 2 "" (log ++ line ++ "\n") ∧
        o.Complains x log line := by
  have hreader : WholeLines (logReader o "derivation") := wholeLines_logLine o _ _
  cases hd : parseDerivation src with
  | error e =>
    have hquiet : o.verbose = false → logReader o "derivation" = "" :=
      fun h => logLine_eq_empty h _ _
    refine .inr ⟨.proof hx hsrc hd, _, _, ?_, complains_syntax hquiet hreader e src⟩
    simp only [runOnText, hd, syntaxLine, String.append_assoc]
  | ok d =>
    cases hgoal : o.goalText? with
    | none =>
      refine .inl ⟨d, d.conclusion, rfl, ?_⟩
      unfold Options.Asks
      rw [hgoal]
    | some text =>
      cases hq : parseSequent text with
      | ok q =>
        refine .inl ⟨d, q, rfl, ?_⟩
        unfold Options.Asks
        rw [hgoal]
        exact hq
      | error e =>
        have hquiet : o.verbose = false → logReader o "derivation" ++ logReader o "sequent" = "" := by
          intro h
          rw [logReader, logReader, logLine_eq_empty h, logLine_eq_empty h]
          rfl
        refine .inr ⟨.goal hgoal hq, _, _, ?_,
          complains_syntax hquiet (hreader.append (wholeLines_logLine o _ _)) e text⟩
        simp only [runOnText, hd, hgoal, hq, syntaxLine, String.append_assoc]

/-- A run in which something goes wrong that is not caught does not exit. -/
theorem Options.Escapes.runOn_ne_done (h : o.Escapes x) (status : Nat) (out err : String) :
    runOn o x ≠ .done status out err := by
  have hlimits : ∀ n : Int, 0 < n → ∃ limits, Limits.ofInt n n.repr = .ok limits :=
    fun n hpos => ⟨_, dif_pos (by omega)⟩
  intro hrun
  cases h with
  | depth hn =>
    rw [runOn, hn] at hrun
    cases hrun
  | name hn hpos hx =>
    obtain ⟨limits, hl⟩ := hlimits _ hpos
    simp only [runOn, hn, hl, hx] at hrun
    cases hrun
  | noText hn hpos hx hnone =>
    obtain ⟨limits, hl⟩ := hlimits _ hpos
    simp only [runOn, hn, hl, hx, hnone] at hrun
    cases hrun

/-- A run goes wrong, or complains, or has something to check. -/
theorem runOn_cases (o : Options) (x : Except ReadError ByteArray) :
    o.Escapes x ∨
      (o.Unfit x ∧ ∃ log line, runOn o x = .done 2 "" (log ++ line ++ "\n") ∧
        o.Complains x log line) ∨
      ∃ n d q, o.Given x n d q := by
  cases hn : o.maxDepth with
  | none => exact .inl (.depth hn)
  | some n =>
    obtain ⟨hneg, hlimits⟩ | ⟨m, hpos, rfl, hlimits⟩ := limits_cases n n.repr
    · refine .inr (.inl ⟨.depth hn hneg, "", "error: " ++ "max_depth must be positive", ?_,
        fun _ => rfl, .inl rfl, ⟨_, .inl rfl⟩, fun _ => by decide⟩)
      simp only [runOn, hn, hlimits]
      rfl
    · have hpos' : 0 < (m : Int) := Int.natCast_pos.mpr hpos
      cases x with
      | error e =>
        by_cases he : e = .nullByte
        · exact .inl (.name hn hpos' (congrArg Except.error he))
        · exact .inr (.inl ⟨.unread rfl, "", _, runOn_of_unread hn hlimits he,
            complains_unread o e⟩)
      | ok bytes =>
        cases hsrc : decode bytes with
        | none => exact .inl (.noText hn hpos' rfl hsrc)
        | some src =>
          rw [runOn_of_decode hn hlimits hsrc]
          obtain ⟨d, q, hd, hq⟩ | h := runOnText_cases o ⟨m, hpos, (m : Int).repr⟩ rfl hsrc
          · exact .inr (.inr ⟨m, d, q, hn, hpos, ⟨bytes, src, rfl, hsrc, hd⟩, hq⟩)
          · exact .inr (.inl h)

namespace Options.Given
variable {n : Nat} {d : Derivation} {q : Sequent} (h : o.Given x n d q)
include h

theorem not_escapes : ¬ o.Escapes x := by
  obtain ⟨bytes, src, rfl, hsrc, -⟩ := h.proof
  intro hesc
  cases hesc with
  | depth hn => exact absurd (hn.symm.trans h.depth) nofun
  | name _ _ hx => exact absurd hx nofun
  | noText _ _ hx hnone =>
    obtain rfl := Except.ok.inj hx
    exact absurd (hnone.symm.trans hsrc) nofun

theorem not_unfit : ¬ o.Unfit x := by
  obtain ⟨bytes, src, rfl, hsrc, hd⟩ := h.proof
  intro hun
  cases hun with
  | depth hn hle =>
    obtain rfl := Option.some.inj (hn.symm.trans h.depth)
    exact absurd h.pos (by omega)
  | unread hx => exact absurd hx nofun
  | noText hx hnone =>
    obtain rfl := Except.ok.inj hx
    exact absurd (hnone.symm.trans hsrc) nofun
  | proof hx hsrc' he =>
    obtain rfl := Except.ok.inj hx
    obtain rfl := Option.some.inj (hsrc'.symm.trans hsrc)
    exact absurd (he.symm.trans hd) nofun
  | goal hgoal he =>
    have hq := h.goal
    unfold Options.Asks at hq
    rw [hgoal] at hq
    exact absurd (he.symm.trans hq) nofun

/-- What there is to check gets the right verdict, on the last line. -/
theorem runOn_eq : ∃ (v : Verdict) (echo err : String),
    runOn o x = .done v.status (echo ++ v.text ++ "\n") err ∧ WholeLines echo ∧ OneLine v.text ∧
      RightVerdict v d q n := by
  obtain ⟨bytes, src, rfl, hsrc, hd⟩ := h.proof
  obtain ⟨v, echo, err, hrun, hlines, hone, -, hv⟩ := runOnText_lines ⟨n, h.pos, (n : Int).repr⟩ hd
    h.goal
  refine ⟨v, echo, err, ?_, hlines, hone (oneLine_intRepr n), hv⟩
  rw [runOn_of_decode h.depth (limits_of_pos h.pos _) hsrc, hrun]

end Options.Given

end

/-- **How a run exits.** Let the arguments be accepted, and let `o.content read input` be what is read:
any bytes, or an error. The run exits with a status unless the depth limit has no value, the name of
the proof holds the character that ends a name, or the proof is no text. If it exits and there is
nothing to check, the status is 2, nothing is printed, and the log ends with an error line. If there is
something to check, the status is that of the verdict, and the verdict is the last line printed. -/
theorem run_exit (read : String → Except ReadError ByteArray) (input : ByteArray)
    {args : List String} {o : Options} (ho : Options.parse args = .ok o) :
    ((∃ status out err, run read input args = .done status out err) ↔
      ¬ o.Escapes (o.content read input)) ∧
    (¬ o.Escapes (o.content read input) → o.Unfit (o.content read input) → ∃ log line,
      run read input args = .done 2 "" (log ++ line ++ "\n") ∧
        o.Complains (o.content read input) log line) ∧
    (¬ o.Escapes (o.content read input) → ¬ o.Unfit (o.content read input) →
      ∃ n d q v echo err, o.Given (o.content read input) n d q ∧
        run read input args = .done v.status (echo ++ v.text ++ "\n") err ∧
        WholeLines echo ∧ OneLine v.text ∧ RightVerdict v d q n) := by
  rw [run_of_parse ho]
  obtain hesc | ⟨hun, log, line, hrun, hline⟩ | ⟨n, d, q, hgiven⟩ :=
    runOn_cases o (o.content read input)
  · refine ⟨iff_of_false ?_ (not_not_intro hesc), fun h => absurd hesc h, fun h => absurd hesc h⟩
    rintro ⟨status, out, err, hrun⟩
    exact hesc.runOn_ne_done status out err hrun
  · refine ⟨iff_of_true ⟨2, "", _, hrun⟩ fun hesc => hesc.runOn_ne_done _ _ _ hrun,
      fun _ _ => ⟨log, line, hrun, hline⟩, fun _ h => absurd hun h⟩
  · obtain ⟨v, echo, err, hrun, hlines, hone, hv⟩ := hgiven.runOn_eq
    exact ⟨iff_of_true ⟨_, _, _, hrun⟩ hgiven.not_escapes, fun _ h => absurd h hgiven.not_unfit,
      fun _ _ => ⟨n, d, q, v, echo, err, hgiven, hrun, hlines, hone, hv⟩⟩

/-- A run says in one line that its proof is not found. -/
theorem run_not_found : ∃ line, run (fun _ => .error .notFound) .empty ["p"] =
    .done 2 "" ("" ++ line ++ "\n") ∧ OneLine line := by
  have hcaught : ¬ fileOnly.Escapes (.error .notFound) := by
    intro h
    cases h with
    | depth hn => cases hn
    | name _ _ hx => cases hx
    | noText _ _ hx _ => cases hx
  obtain ⟨-, hcomplain, -⟩ := run_exit (fun _ => .error .notFound) .empty parse_fileOnly
  obtain ⟨log, line, hrun, hline⟩ := hcomplain hcaught (.unread rfl)
  obtain rfl : log = "" := hline.quiet rfl
  refine ⟨line, hrun, hline.oneLine ?_⟩
  rintro e ⟨⟩
  decide

/-- A file whose one byte is no text ends the run without an exit status. -/
theorem run_undecodable : run (fun _ => .ok ⟨#[0xff]⟩) .empty ["p"] = .undecodable := by
  have hlimits : Limits.ofInt 10000 (10000 : Int).repr = .ok _ := limits_of_pos (by decide) _
  have hnone : decode ⟨#[0xff]⟩ = none := by decide +kernel
  rw [run_of_parse parse_fileOnly]
  show runOn fileOnly (.ok ⟨#[0xff]⟩) = _
  simp only [runOn, fileOnly, hlimits, hnone]

end CommandLine

end NaturalDeduction
