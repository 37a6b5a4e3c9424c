import NaturalDeduction.Proofs.PlainRules
import NaturalDeduction.Proofs.Stacks

/-!
# Tours of a derivation

The survey of a derivation and the run over its rules as loops over a stack.

* `Graph.shapeNext`     the loop of the survey: a node is entered, and left when everything that was
                        put above it has been worked off;
* `survey_drains`       the survey is that loop;
* `Graph.ruleNext`      the loop of the run over the rules: the path to a node is what is left of the
                        path to the one before it, cut to the depth of the parent;
* `checkRules_drains`   after a survey that passes, the run over the rules is that loop.
-/

namespace NaturalDeduction

namespace Graph
variable {g : Graph}

/-! ## the survey -/

/-- What lies on the stack of the survey: a node, with its index below its parent, or a number in
the place of one. -/
inductive ShapeEntry where
  | enter (r : Ref) (index : Option Nat)
  | leave (r : Ref) (index : Option Nat)
  | number (index : Nat)

/-- The state of the survey: what it has found out, the nodes between the root and the current one,
and the path to it. -/
structure ShapeState where
  survey : Survey
  onPath : RefSet
  path : List Nat

/-- A node of this height is left. -/
def ShapeState.leave (s : ShapeState) (r : Ref) (index : Option Nat) (height : Nat) :
    ShapeState where
  survey := { s.survey with heights := s.survey.heights.insert r height }
  onPath := s.onPath.erase r
  path := if index.isSome then s.path.dropLast else s.path

/-- The node at the end of this path is entered. -/
def ShapeState.enter (s : ShapeState) (r : Ref) (path : List Nat) (memo : Memo) : ShapeState where
  survey := { s.survey with memo }
  onPath := s.onPath.insert r
  path := path

/-- The entries for what is in a sequence of premises. -/
def premiseEntries : Cell → List ShapeEntry
  | .bytes bs => (List.range bs.length).map .number
  | c => c.items.zipIdx.map fun q => .enter q.1 (some q.2)

/-- What the survey does with an entry. -/
def shapeNext (g : Graph) (written : String) (maxDepth : Nat) :
    ShapeEntry → ShapeState → Except Stop (List ShapeEntry × ShapeState)
  | .leave r i, s =>
    match heightAbove s.survey.heights (g.premisesOf r) with
    | .error f => .error (.failure f)
    | .ok h => .ok ([], s.leave r i h)
  | .number i, s => .error (notDerivation (.ofPath (s.path ++ [i]).reverse) .int)
  | .enter r i, s =>
    let path := s.path ++ i.toList
    match g.get r with
    | .derivation R c p =>
      if s.onPath.contains r then
        .error (misshapen (.ofPath path.reverse) "derivation contains itself")
      else
        match s.survey.heights[r]? with
        | some h =>
          if maxDepth ≤ path.length + h then
            match g.deepest s.survey.heights (maxDepth - path.length) r with
            | .error f => .error (.failure f)
            | .ok below => .error (tooDeep (Location.ofPath path.reverse ++ below) written)
          else .ok ([], s)
        | none =>
          if maxDepth ≤ path.length then .error (tooDeep (.ofPath path.reverse) written)
          else
            match g.get R with
            | .rule rule =>
              match (g.get p).sequence? with
              | some _ =>
                match g.sequentOk s.survey.memo c with
                | (false, _) =>
                  .error (.reject ⟨.malformedInput, .ofPath path.reverse, some rule,
                    "recorded conclusion is not a well-formed sequent"⟩)
                | (true, memo) =>
                  .ok (premiseEntries (g.get p) ++ [.leave r i], s.enter r path memo)
              | none =>
                .error (misshapen (.ofPath path.reverse)
                  "premises must be a sequence of derivations")
            | _ => .error (unknownRule (.ofPath path.reverse) (g.quote? R))
    | c => .error (notDerivation (.ofPath path.reverse) c.kind)

/-- The state with which the loop comes back from what the recursion did below `path`. -/
structure ShapeFits (path : List Nat) (above : RefSet) (a : Survey) (s : ShapeState) : Prop where
  survey : s.survey = a
  path : s.path = path
  onPath : ∀ x, s.onPath.contains x = above.contains x

/-- A node is left: its height is known now, and the path to it is given up. -/
theorem leave_worksOff {written : String} {maxDepth : Nat} {r : Ref} {i : Option Nat}
    {path : List Nat} {above : RefSet} {a : Survey} {s : ShapeState}
    (ha : ¬ above.contains r = true) (h : ShapeFits (path ++ i.toList) (above.insert r) a s) :
    WorksOff (g.shapeNext written maxDepth) ShapeState.survey [.leave r i] s (ShapeFits path above)
      (match heightAbove a.heights (g.premisesOf r) with
      | .error f => .error (.failure f)
      | .ok k => .ok { a with heights := a.heights.insert r k }) := by
  obtain ⟨rfl, hpath, honPath⟩ := h
  cases hk : heightAbove s.survey.heights (g.premisesOf r) with
  | error f => exact worksOff_stop (by simp only [shapeNext, hk])
  | ok k =>
    have hnext : g.shapeNext written maxDepth (.leave r i) s = .ok ([], s.leave r i k) := by
      simp only [shapeNext, hk]
    refine worksOff_one hnext ⟨rfl, ?_, fun x => ?_⟩
    · cases i with
      | none => simpa [ShapeState.leave] using hpath
      | some i => simp [ShapeState.leave, hpath]
    · rw [ShapeState.leave, Std.TreeSet.contains_erase, honPath, Std.TreeSet.contains_insert]
      by_cases hx : r = x
      · subst hx
        rw [eq_false_of_ne_true ha]
        simp
      · have hne : (compare r x == .eq) = false := by simpa using hx
        rw [bne, hne]
        rfl

theorem premiseEntries_of_sequence {c : Cell} {ps : List Ref} (h : c.sequence? = some ps)
    (hb : ¬ c.holdsBytes = true) :
    premiseEntries c = ps.zipIdx.map fun q => .enter q.1 (some q.2) := by
  unfold Cell.sequence? at h
  split at h <;> cases h
  case h_1 | h_2 => rfl
  case h_3 bs =>
    obtain rfl : bs = [] := by simpa [Cell.holdsBytes] using hb
    rfl

/-- A number in the place of the first premise ends the survey. -/
theorem number_worksOff {written : String} {maxDepth : Nat} {c : Cell} (hb : c.holdsBytes = true)
    {es : List ShapeEntry} {s : ShapeState} {P : Survey → ShapeState → Prop} :
    WorksOff (g.shapeNext written maxDepth) ShapeState.survey (premiseEntries c ++ es) s P
      (.error (notDerivation (Location.ofPath s.path.reverse ++ [0]) .int)) := by
  unfold Cell.holdsBytes at hb
  split at hb
  case h_2 => cases hb
  case h_1 bs =>
    cases bs with
    | nil => cases hb
    | cons b bs =>
      rw [premiseEntries, List.length_cons, List.range_succ_eq_map]
      refine worksOff_stop ?_
      rw [shapeNext, List.reverse_concat, ofPath_cons]
      rfl

/-- A node that was entered is worked off with its premises. -/
theorem entered_worksOff {written : String} {maxDepth : Nat} {r : Ref} {i : Option Nat}
    {above : RefSet} {s : ShapeState} {memo : Memo} {ps : List Ref}
    {f : Survey → Ref × Nat → Except Stop Survey} (ha : ¬ above.contains r = true)
    (hps : g.premisesOf r = ps) (honPath : ∀ x, s.onPath.contains x = above.contains x)
    (hf : ∀ q ∈ ps.zipIdx, ∀ a t, ShapeFits (s.path ++ i.toList) (above.insert r) a t →
      WorksOff (g.shapeNext written maxDepth) ShapeState.survey [.enter q.1 (some q.2)] t
        (ShapeFits (s.path ++ i.toList) (above.insert r)) (f a q)) :
    WorksOff (g.shapeNext written maxDepth) ShapeState.survey
      ((ps.zipIdx.map fun q => .enter q.1 (some q.2)) ++ [.leave r i])
      (s.enter r (s.path ++ i.toList) memo) (ShapeFits s.path above) (do
        let a ← ps.zipIdx.foldlM f { s.survey with memo }
        match heightAbove a.heights ps with
        | .error f => .error (.failure f)
        | .ok h => .ok { a with heights := a.heights.insert r h }) := by
  have hin : ShapeFits (s.path ++ i.toList) (above.insert r) { s.survey with memo }
      (s.enter r (s.path ++ i.toList) memo) := by
    refine ⟨rfl, rfl, fun x => ?_⟩
    rw [ShapeState.enter, Std.TreeSet.contains_insert, honPath, Std.TreeSet.contains_insert]
  exact (WorksOff.foldlM hin hf).append fun a t ht => hps ▸ leave_worksOff ha ht

/-- A node that was left before is not entered again: only its height counts. -/
theorem known_worksOff {written : String} {maxDepth n k : Nat} {r R c p : Ref} {i : Option Nat}
    {above : RefSet} {s : ShapeState} (hr : g.get r = .derivation R c p)
    (ha : ¬ s.onPath.contains r = true) (hk : s.survey.heights[r]? = some k)
    (hn : n = maxDepth - (s.path ++ i.toList).length)
    (honPath : ∀ x, s.onPath.contains x = above.contains x) :
    WorksOff (g.shapeNext written maxDepth) ShapeState.survey [.enter r i] s (ShapeFits s.path above)
      (if n ≤ k then
        match g.deepest s.survey.heights n r with
        | .error f => .error (.failure f)
        | .ok below =>
          .error (tooDeep (Location.ofPath (s.path ++ i.toList).reverse ++ below) written)
      else .ok s.survey) := by
  split
  case isTrue hle =>
    have hle : maxDepth ≤ (s.path ++ i.toList).length + k := by omega
    split
    case h_1 f hf =>
      refine worksOff_stop ?_
      simp only [shapeNext, hr, if_neg ha, hk, if_pos hle, ← hn, hf]
    case h_2 below hbelow =>
      refine worksOff_stop ?_
      simp only [shapeNext, hr, if_neg ha, hk, if_pos hle, ← hn, hbelow]
  case isFalse hle =>
    have hle : ¬ maxDepth ≤ (s.path ++ i.toList).length + k := by omega
    refine worksOff_one ?_ ⟨rfl, rfl, honPath⟩
    simp only [shapeNext, hr, if_neg ha, hk, if_neg hle]

/-- The survey of a node is what the loop does with it. The induction is on the levels left: they
are what the limit leaves below the path. -/
theorem survey_worksOff {written : String} {maxDepth n : Nat} {r : Ref} {i : Option Nat}
    {path : List Nat} {above : RefSet} {a : Survey} {s : ShapeState}
    (hn : n = maxDepth - (path ++ i.toList).length) (h : ShapeFits path above a s) :
    WorksOff (g.shapeNext written maxDepth) ShapeState.survey [.enter r i] s (ShapeFits path above)
      (g.survey written n (path ++ i.toList).reverse above r a) := by
  induction n using Nat.strongRecOn generalizing r i path above a s with
  | ind n ih =>
  obtain ⟨rfl, rfl, honPath⟩ := h
  unfold survey
  split
  case h_2 => exact worksOff_stop (by simp only [shapeNext])
  case h_1 R c p hr =>
    split
    case isTrue ha =>
      rw [← honPath] at ha
      exact worksOff_stop (by simp only [shapeNext, hr, if_pos ha])
    case isFalse ha =>
      have ha' : ¬ s.onPath.contains r = true := by rwa [honPath]
      split
      case h_1 k hk => exact known_worksOff hr ha' hk hn honPath
      case h_2 hk =>
        split
        case h_1 =>
          have hle : maxDepth ≤ (s.path ++ i.toList).length := by omega
          exact worksOff_stop (by simp only [shapeNext, hr, if_neg ha', hk, if_pos hle])
        case h_2 n =>
          have hle : ¬ maxDepth ≤ (s.path ++ i.toList).length := by omega
          split
          case h_2 hR =>
            refine worksOff_stop ?_
            simp only [shapeNext, hr, if_neg ha', hk, if_neg hle]
          case h_1 rule hR =>
            split
            case h_2 hps =>
              refine worksOff_stop ?_
              simp only [shapeNext, hr, if_neg ha', hk, if_neg hle, hR, hps]
            case h_1 ps hps =>
              split
              case h_1 hm =>
                refine worksOff_stop ?_
                simp only [shapeNext, hr, if_neg ha', hk, if_neg hle, hR, hps, hm]
              case h_2 memo hm =>
                have hnext : g.shapeNext written maxDepth (.enter r i) s =
                    .ok (premiseEntries (g.get p) ++ [.leave r i],
                      s.enter r (s.path ++ i.toList) memo) := by
                  simp only [shapeNext, hr, if_neg ha', hk, if_neg hle, hR, hps, hm]
                refine WorksOff.push ?_ hnext
                split
                case isTrue hb => exact number_worksOff hb
                case isFalse hb =>
                  have hpremises : g.premisesOf r = ps := by
                    rw [premisesOf, hr]
                    exact Cell.items_of_sequence? hps
                  rw [premiseEntries_of_sequence hps hb]
                  refine entered_worksOff ha hpremises honPath fun q _ a t ht => ?_
                  have hlevels : n = maxDepth -
                      (s.path ++ i.toList ++ (some q.2).toList).length := by
                    rw [List.length_append, Option.toList_some, List.length_singleton]
                    omega
                  have hpart := ih n (Nat.lt_succ_self n) (r := q.1) hlevels ht
                  simpa using hpart

/-- **The survey is a loop over a stack.** -/
theorem survey_drains (written : String) (maxDepth : Nat) (tree : Ref) (memo : Memo) :
    Drains (g.shapeNext written maxDepth) ShapeState.survey [.enter tree none] ⟨⟨{}, memo⟩, {}, []⟩
      (g.survey written maxDepth [] {} tree ⟨{}, memo⟩) := by
  have hstart : ShapeFits [] {} ⟨{}, memo⟩ ⟨⟨{}, memo⟩, {}, []⟩ := ⟨rfl, rfl, fun _ => rfl⟩
  exact (survey_worksOff (i := none) rfl hstart).drains fun _ _ h => h.survey

/-! ## the run over the rules -/

/-- What lies on the stack of the run over the rules: a node, its index below its parent, and its
depth. -/
structure RuleEntry where
  node : Ref
  index : Option Nat
  depth : Nat

/-- The state of the run: the nodes passed, and the path to the last node that was looked at. -/
structure RuleState where
  seen : RefSet
  path : List Nat

/-- The path to a node, after the path to the node before it: of that, the part above the parent's
premises is kept. -/
def RuleEntry.place (e : RuleEntry) (path : List Nat) : List Nat :=
  match e.index with
  | none => path
  | some i => path.take (e.depth - 1) ++ [i]

/-- The root is checked for the target, every other node for what it records. -/
def RuleEntry.goal? (g : Graph) (target : Judgement) (e : RuleEntry) : Option Judgement :=
  if e.index.isNone then some target else g.conclusion? e.node

/-- What the run does with a node. -/
def ruleNext (g : Graph) (target : Judgement) (e : RuleEntry) (s : RuleState) :
    Except Stop (List RuleEntry × RuleState) :=
  let path := e.place s.path
  if s.seen.contains e.node then .ok ([], ⟨s.seen, path⟩)
  else
    match e.goal? g target with
    | none => .error (.failure .noPart)
    | some goal => do
      g.checkAt path.reverse e.node goal
      .ok ((g.premisesOf e.node).zipIdx.map fun q => ⟨q.1, some q.2, e.depth + 1⟩,
        ⟨s.seen.insert e.node, path⟩)

/-- The state with which the loop comes back from what the recursion did below `path`: its path may
be longer. -/
structure RuleFits (path : List Nat) (seen : RefSet) (s : RuleState) : Prop where
  seen : s.seen = seen
  path : s.path.take path.length = path

theorem checkRules_worksOff {target goal : Judgement} {n : Nat} {e : RuleEntry} {path : List Nat}
    {s : RuleState} (hplace : e.place s.path = path) (hdepth : path.length = e.depth)
    (hgoal : e.goal? g target = some goal) (hsh : g.Shallow n e.node)
    (hnodes : ∀ x, g.Below e.node x → ∃ j, g.conclusion? x = some j) :
    WorksOff (g.ruleNext target) RuleState.seen [e] s (RuleFits path)
      (g.checkRules n path.reverse e.node goal s.seen) := by
  induction n generalizing e path goal s with
  | zero => cases hsh
  | succ n ih =>
    have hback : ∀ seen, RuleFits path seen ⟨seen, path⟩ := fun _ => ⟨rfl, List.take_length⟩
    by_cases hseen : s.seen.contains e.node = true
    · rw [checkRules_of_contains hseen]
      refine worksOff_one ?_ (hback s.seen)
      simp only [ruleNext, if_pos hseen, hplace]
    · rw [checkRules_eq_bind hseen]
      cases hat : g.checkAt path.reverse e.node goal with
      | error f =>
        refine worksOff_stop ?_
        simp only [ruleNext, if_neg hseen, hgoal, hplace, hat]
        rfl
      | ok a =>
        have hnext : g.ruleNext target e s =
            .ok ((g.premisesOf e.node).zipIdx.map fun q => ⟨q.1, some q.2, e.depth + 1⟩,
              ⟨s.seen.insert e.node, path⟩) := by
          simp only [ruleNext, if_neg hseen, hgoal, hplace, hat]
          rfl
        refine WorksOff.push (WorksOff.foldlM (hback _) fun q hq seen s hs => ?_) hnext
        -- the path to the premise is that to its parent, whatever was looked at in between
        obtain ⟨rfl, hpath⟩ := hs
        have hp : q.1 ∈ g.premisesOf e.node := mem_of_mem_zipIdx hq
        have hbelow : ∀ x, g.Below q.1 x → ∃ j, g.conclusion? x = some j :=
          fun x hx => hnodes x (.head hp hx)
        obtain ⟨j, hj⟩ := hbelow q.1 .refl
        have hplace' : (⟨q.1, some q.2, e.depth + 1⟩ : RuleEntry).place s.path = path ++ [q.2] := by
          simp only [RuleEntry.place, Nat.add_sub_cancel, ← hdepth, hpath]
        have hpart := ih hplace' (by simp [hdepth]) hj (hsh.premise hp) hbelow
        rw [checkPremise, hj]
        rw [List.reverse_concat] at hpart
        refine hpart.imp fun seen s hs => ⟨hs.seen, ?_⟩
        have htake := congrArg (List.take path.length) hs.path
        simpa [List.take_take] using htake

/-- **After a survey that passes, the run over the rules is a loop over a stack**, with one path that
is cut to the depth of the parent before it is followed further. -/
theorem checkRules_drains {limits : Limits} {tree : Ref} {target : Judgement} {memo : Memo}
    {sv : Survey} (hm : g.checkTarget target = .ok memo)
    (hs : g.survey limits.written limits.maxDepth [] {} tree ⟨{}, memo⟩ = .ok sv) :
    Drains (g.ruleNext target) RuleState.seen [⟨tree, none, 0⟩] ⟨{}, []⟩
      (g.checkRules limits.maxDepth [] tree target {}) := by
  obtain ⟨hsh, -, hnodes⟩ := looseIn_of_survey hm hs
  have hcon : ∀ x, g.Below tree x → ∃ j, g.conclusion? x = some j := fun x hx => by
    obtain ⟨R, j, ps, hn, -⟩ := hnodes x hx
    exact ⟨j, hn.conclusion⟩
  exact (checkRules_worksOff (e := ⟨tree, none, 0⟩) (s := ⟨{}, []⟩) rfl rfl rfl hsh hcon).drains
    fun _ _ h => h.seen

/-- **A check runs the two loops**, the second if the first one comes to its end. -/
theorem checkSteps_of_drains {limits : Limits} {tree : Ref} {target : Judgement} {memo : Memo}
    (hm : g.checkTarget target = .ok memo) {x : Except Stop Survey} {y : Except Stop RefSet}
    (hx : Drains (g.shapeNext limits.written limits.maxDepth) ShapeState.survey [.enter tree none]
      ⟨⟨{}, memo⟩, {}, []⟩ x)
    (hy : Drains (g.ruleNext target) RuleState.seen [⟨tree, none, 0⟩] ⟨{}, []⟩ y) :
    g.checkSteps limits tree target =
      x >>= fun _ => y >>= fun _ => g.checkConclusion tree target := by
  obtain rfl := hx.unique (survey_drains limits.written limits.maxDepth tree memo)
  rw [checkSteps, hm]
  show (g.survey limits.written limits.maxDepth [] {} tree ⟨{}, memo⟩ >>= fun _ => _) = _
  cases hs : g.survey limits.written limits.maxDepth [] {} tree ⟨{}, memo⟩ with
  | error e => rfl
  | ok sv =>
    obtain rfl := hy.unique (checkRules_drains hm hs)
    rfl

end Graph

end NaturalDeduction
