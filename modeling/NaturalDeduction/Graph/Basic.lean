import Std.Data.TreeMap
import Std.Data.TreeSet
import NaturalDeduction.Syntax.Rule

/-!
# Graphs of untrusted values

Values that are still to be checked are cells of a graph, and a cell refers to its parts by their
references. Sharing is visible: two references are the same value only if they are equal.

* `Cell`            one value: a constructor applied to references, or a plain datum;
* `Kind`, `Field`   the constructor of a cell, and the names of its parts;
* `Graph`           cells by reference. Every cell but a list refers only to earlier cells, so
                    that types, terms, environments and sequents are finite whatever is shared;
                    a list can grow after it was made, and cycles go through lists only. An
                    environment or a dictionary has each text once among its keys;
* `Graph.add`, `Graph.append?`   a graph with one more cell, or with a longer list.
-/

namespace NaturalDeduction

abbrev Ref := Nat

abbrev RefSet := Std.TreeSet Ref compare

inductive Kind where
  | null | bool | int | text | bytes | absent | rule
  | bottom | base | arrow | product | sum
  | var | pair | inl | inr | case | fst | snd | lambda | abort
  | env | sequent | derivation
  | tuple | list | dict
  deriving DecidableEq, Repr

/-- The name of a constructor in messages and in quoted values. -/
def Kind.name : Kind → String
  | null => "NoneType"
  | bool => "bool"
  | int => "int"
  | text => "str"
  | bytes => "bytes"
  | absent => "Absent"
  | rule => "Rule"
  | bottom => "Bottom"
  | base => "BaseVar"
  | arrow => "Arrow"
  | product => "Product"
  | sum => "Sum"
  | var => "Var"
  | pair => "Pair"
  | inl => "InL"
  | inr => "InR"
  | case => "Case"
  | fst => "Fst"
  | snd => "Snd"
  | lambda => "Lambda"
  | abort => "Abort"
  | env => "Env"
  | sequent => "Sequent"
  | derivation => "Derivation"
  | tuple => "tuple"
  | list => "list"
  | dict => "dict"

inductive Field where
  | name | dom | cod | left | right
  | fst | snd | body | scrutinee | onLeft | onRight | pair | param | paramTy
  | env | term | ty | rule | conclusion | premises
  deriving DecidableEq, Repr

def Field.label : Field → String
  | name => "name"
  | dom => "dom"
  | cod => "cod"
  | left => "left"
  | right => "right"
  | fst => "fst"
  | snd => "snd"
  | body => "body"
  | scrutinee => "scrutinee"
  | onLeft => "on_left"
  | onRight => "on_right"
  | pair => "pair"
  | param => "param"
  | paramTy => "param_ty"
  | env => "env"
  | term => "term"
  | ty => "ty"
  | rule => "rule"
  | conclusion => "conclusion"
  | premises => "premises"

/-- A way from a value down to one of its parts. -/
abbrev Path := List Field

/-- One value of a graph. -/
inductive Cell where
  | null
  | bool (b : Bool)
  | int (n : Int)
  | text (s : String)
  | bytes (bs : List UInt8)
  /-- the mark for a name that is not bound -/
  | absent
  | rule (r : Rule)
  | bottom
  | base (name : Ref)
  | arrow (dom cod : Ref)
  | product (left right : Ref)
  | sum (left right : Ref)
  | var (name : Ref)
  | pair (fst snd : Ref)
  | inl (body : Ref)
  | inr (body : Ref)
  | case (scrutinee onLeft onRight : Ref)
  | fst (pair : Ref)
  | snd (pair : Ref)
  | lambda (param paramTy body : Ref)
  | abort (body : Ref)
  /-- names with their types, in insertion order -/
  | env (bindings : List (Ref × Ref))
  | sequent (env term ty : Ref)
  | derivation (rule conclusion premises : Ref)
  | tuple (items : List Ref)
  | list (items : List Ref)
  | dict (entries : List (Ref × Ref))
  deriving DecidableEq, Repr

instance : Inhabited Cell := ⟨.null⟩

namespace Cell

def kind : Cell → Kind
  | null => .null
  | bool _ => .bool
  | int _ => .int
  | text _ => .text
  | bytes _ => .bytes
  | absent => .absent
  | rule _ => .rule
  | bottom => .bottom
  | base _ => .base
  | arrow _ _ => .arrow
  | product _ _ => .product
  | sum _ _ => .sum
  | var _ => .var
  | pair _ _ => .pair
  | inl _ => .inl
  | inr _ => .inr
  | case _ _ _ => .case
  | fst _ => .fst
  | snd _ => .snd
  | lambda _ _ _ => .lambda
  | abort _ => .abort
  | env _ => .env
  | sequent _ _ _ => .sequent
  | derivation _ _ _ => .derivation
  | tuple _ => .tuple
  | list _ => .list
  | dict _ => .dict

/-- The named parts of a cell, in order. -/
def fields : Cell → List (Field × Ref)
  | base n => [(.name, n)]
  | arrow a b => [(.dom, a), (.cod, b)]
  | product a b => [(.left, a), (.right, b)]
  | sum a b => [(.left, a), (.right, b)]
  | var n => [(.name, n)]
  | pair a b => [(.fst, a), (.snd, b)]
  | inl a => [(.body, a)]
  | inr a => [(.body, a)]
  | case a f g => [(.scrutinee, a), (.onLeft, f), (.onRight, g)]
  | fst a => [(.pair, a)]
  | snd a => [(.pair, a)]
  | lambda x a b => [(.param, x), (.paramTy, a), (.body, b)]
  | abort a => [(.body, a)]
  | sequent e t a => [(.env, e), (.term, t), (.ty, a)]
  | derivation r c p => [(.rule, r), (.conclusion, c), (.premises, p)]
  | _ => []

def items : Cell → List Ref
  | tuple xs => xs
  | list xs => xs
  | _ => []

/-- The bindings of an environment or the entries of a dictionary. -/
def entries : Cell → List (Ref × Ref)
  | env bs => bs
  | dict es => es
  | _ => []

def refs (c : Cell) : List Ref :=
  c.fields.map Prod.snd ++ c.items ++ c.entries.flatMap fun e => [e.1, e.2]

/-- A cell that may stand at `n`: unless it is a list, it refers to earlier cells only. -/
def Below (c : Cell) (n : Nat) : Prop := c.kind = .list ∨ ∀ s ∈ c.refs, s < n

instance (c : Cell) (n : Nat) : Decidable (c.Below n) := by unfold Below; infer_instance

theorem below_null (n : Nat) : null.Below n := by simp [Below, refs, fields, items, entries]

theorem below_list (xs : List Ref) (n : Nat) : (list xs).Below n := .inl rfl

theorem lt_of_mem_entries {c : Cell} {n : Nat} (hc : c.Below n) {e : Ref × Ref}
    (he : e ∈ c.entries) : e.1 < n ∧ e.2 < n := by
  have hk : c.kind ≠ .list := by
    intro hk
    cases c <;> simp_all [kind, entries]
  have hm : ∀ s ∈ [e.1, e.2], s ∈ c.refs := fun s hs =>
    List.mem_append_right _ (List.mem_flatMap.mpr ⟨e, he, hs⟩)
  exact ⟨hc.resolve_left hk _ (hm _ (by simp)), hc.resolve_left hk _ (hm _ (by simp))⟩

/-- The text that a cell is; a rule is the text of its tag. -/
def text? : Cell → Option String
  | text s => some s
  | rule R => some R.tag
  | _ => none

/-- The texts among the keys of a cell. -/
def words (text : Ref → Option String) (c : Cell) : List String :=
  c.entries.filterMap fun e => text e.1

theorem words_congr {t t' : Ref → Option String} {c : Cell} (h : ∀ e ∈ c.entries, t e.1 = t' e.1) :
    c.words t = c.words t' := by
  unfold words
  generalize c.entries = es at h
  induction es with
  | nil => rfl
  | cons e es ih =>
    rw [List.filterMap_cons, List.filterMap_cons, h e List.mem_cons_self,
      ih fun e' he' => h e' (List.mem_cons_of_mem _ he')]

end Cell

def textAt (cells : Array Cell) (r : Ref) : Option String := cells[r]?.bind Cell.text?

structure Graph where
  cells : Array Cell
  below : ∀ (r : Nat) (h : r < cells.size), cells[r].Below r
  apart : ∀ (r : Nat) (h : r < cells.size), (cells[r].words (textAt cells)).Nodup

namespace Graph

def empty : Graph := ⟨#[], by simp, by simp⟩

instance : Inhabited Graph := ⟨empty⟩

def size (g : Graph) : Nat := g.cells.size

/-- The cell at a reference; outside the graph there is only the null value. -/
def get (g : Graph) (r : Ref) : Cell := if h : r < g.cells.size then g.cells[r] else .null

theorem getElem?_of_get {g : Graph} {r : Ref} {c : Cell} (h : g.get r = c) (hc : c ≠ .null) :
    g.cells[r]? = some c := by
  unfold get at h
  split at h
  · rename_i hr
    rw [Array.getElem?_eq_getElem hr, h]
  · exact absurd h.symm hc

theorem get_below (g : Graph) (r : Ref) : (g.get r).Below r := by
  unfold get
  split
  · exact g.below r _
  · exact Cell.below_null r

/-- A part of a cell that is no list comes before it. -/
theorem lt_of_mem_refs {g : Graph} {r s : Ref} (hk : (g.get r).kind ≠ .list)
    (hs : s ∈ (g.get r).refs) : s < r := ((g.get_below r).resolve_left hk) s hs

theorem forall_fields_lt (g : Graph) (r : Ref) : ∀ p ∈ (g.get r).fields, p.2 < r := by
  intro p h
  refine @lt_of_mem_refs g r p.2 (fun hk => ?_) ?_
  · cases hc : g.get r <;> simp_all [Cell.kind, Cell.fields]
  · simp only [Cell.refs, List.mem_append, List.mem_map]
    exact .inl (.inl ⟨p, h, rfl⟩)

def Admits (g : Graph) (c : Cell) : Prop :=
  c.Below g.size ∧ (c.words (textAt g.cells)).Nodup

instance (g : Graph) (c : Cell) : Decidable (g.Admits c) :=
  inferInstanceAs (Decidable (_ ∧ _))

theorem admits_null (g : Graph) : g.Admits .null := ⟨Cell.below_null _, List.nodup_nil⟩

/-- A text stays where it is when a cell is added. -/
theorem textAt_push (cells : Array Cell) (c : Cell) {r : Ref} (hr : r < cells.size) :
    textAt (cells.push c) r = textAt cells r := by
  rw [textAt, textAt, Array.getElem?_push_lt hr, Array.getElem?_eq_getElem hr]

/-- No text is lost or made when a list grows. -/
theorem textAt_set_list {cells : Array Cell} {l : Ref} {xs ys : List Ref}
    (hl : cells[l]? = some (.list xs)) (r : Ref) :
    textAt (cells.setIfInBounds l (.list ys)) r = textAt cells r := by
  rw [textAt, textAt, Array.getElem?_setIfInBounds]
  split
  case isTrue h =>
    subst h
    split <;> simp [hl, Cell.text?]
  case isFalse => rfl

def push (g : Graph) (c : Cell) (h : g.Admits c) : Graph where
  cells := g.cells.push c
  below r hr := by
    rw [Array.getElem_push]
    split
    · exact g.below r _
    · have : r = g.cells.size := by
        rw [Array.size_push] at hr
        omega
      exact this ▸ h.1
  apart r hr := by
    rw [Array.getElem_push]
    split
    · rename_i hlt
      rw [Cell.words_congr fun e he => textAt_push g.cells c
        (Nat.lt_trans (Cell.lt_of_mem_entries (g.below r hlt) he).1 hlt)]
      exact g.apart r hlt
    · rw [Cell.words_congr fun e he => textAt_push g.cells c (Cell.lt_of_mem_entries h.1 he).1]
      exact h.2

/-- The graph with a cell added, and the reference of that cell. A cell that refers to cells that
are not there, or that repeats a key, is replaced by the null value. -/
def add (g : Graph) (c : Cell) : Graph × Ref :=
  let n := g.size
  if h : g.Admits c then (g.push c h, n) else (g.push .null g.admits_null, n)

/-- The graph with a longer list at `l`, if there is a list. -/
def append? (g : Graph) (l x : Ref) : Option Graph :=
  match h : g.get l with
  | .list xs => some
    { cells := g.cells.setIfInBounds l (.list (xs ++ [x]))
      below := by
        intro r hr
        rw [Array.getElem_setIfInBounds (by simpa using hr)]
        split
        · exact Cell.below_list _ _
        · exact g.below r _
      apart := by
        intro r hr
        rw [Cell.words_congr fun e _ => textAt_set_list (getElem?_of_get h (by simp)) e.1,
          Array.getElem_setIfInBounds (by simpa using hr)]
        split
        · exact List.nodup_nil
        · exact g.apart r _ }
  | _ => none

/-! ## texts and names -/

def text? (g : Graph) (r : Ref) : Option String := (g.get r).text?

theorem text?_eq_textAt (g : Graph) (r : Ref) : g.text? r = textAt g.cells r := by
  rw [text?, textAt]
  by_cases h : r < g.cells.size
  · rw [get, dif_pos h, Array.getElem?_eq_getElem h]
    rfl
  · rw [get, dif_neg h, Array.getElem?_eq_none (Nat.le_of_not_lt h)]
    rfl

/-- An environment or a dictionary has each text once among its keys. -/
theorem nodup_words (g : Graph) (r : Ref) :
    ((g.get r).entries.filterMap fun e => g.text? e.1).Nodup := by
  simp only [text?_eq_textAt]
  unfold get
  split
  · exact g.apart r _
  · exact List.nodup_nil

/-- A name is a text that is not empty. -/
def isName (g : Graph) (r : Ref) : Bool := (g.text? r).any (· != "")

end Graph

end NaturalDeduction
