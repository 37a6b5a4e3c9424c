import NaturalDeduction.Syntax.Basic
import NaturalDeduction.Source.Span
import NaturalDeduction.Source.Token

/-!
# Reading types, terms, contexts, sequents and derivations

    A  ::=  P  |  ⊥  |  (A -> A)  |  (A × A)  |  (A + A)
    t  ::=  x  |  (cons t t)  |  (inl t)  |  (inr t)  |  (case t t t)
         |  (car t)  |  (cdr t)  |  (λ (x : A) t)  |  (abort t)
    Γ  ::=  {}  |  {x : A, …, x : A}
    s  ::=  Γ ⊢ t : A
    d  ::=  (R s d … d)

Each reader takes the tokens it needs from the front of a list, one token ahead, and stops at the
first one that cannot come there.

* `Fault`          why a reader stops;
* `readTy`, `readTerm`, `readContext`, `readSequent`, `readDerivation`   the readers;
* `SyntaxError`    a fault with its place in the source;
* `parseTy`, …, `parseDerivation`   the readers on whole texts.

A context is refused at its closing brace when it binds a name twice. A derivation is refused when
it names no rule, after its closing parenthesis and once the next token is known to be one that can
follow a derivation.
-/

namespace NaturalDeduction.Source

/-- Why a reader stops. -/
inductive Fault where
  /-- the first of these tokens cannot come here; if there is none, more tokens are needed -/
  | unexpected (rest : List Token)
  /-- this name is bound earlier in the same context -/
  | duplicate (name : Token)
  /-- this word names no rule; `rest` are the tokens after its derivation -/
  | unknownRule (name : Token) (rest : List Token)
  deriving DecidableEq, Repr

/-- A proper rest of a list of tokens. -/
abbrev Shorter (ts : List Token) := { r : List Token // r.length < ts.length }

/-- The result of reading a value from the front of `ts`. -/
abbrev Read (α : Type) (ts : List Token) := Except Fault (α × Shorter ts)

/-! ## single tokens -/

def next (ts : List Token) : Read Token ts :=
  match ts with
  | [] => .error (.unexpected [])
  | t :: r => .ok (t, ⟨r, by simp⟩)

def expect (k : TokenKind) (ts : List Token) : Read Token ts := do
  let (t, r) ← next ts
  if t.kind = k then .ok (t, r) else .error (.unexpected ts)

/-- The type constructor that an infix symbol stands for. -/
def connective? : TokenKind → Option (Ty → Ty → Ty)
  | .arrow => some .arrow
  | .times => some .product
  | .plus => some .sum
  | _ => none

def readConnective (ts : List Token) : Read (Ty → Ty → Ty) ts := do
  let (t, r) ← next ts
  match connective? t.kind with
  | some mk => .ok (mk, r)
  | none => .error (.unexpected ts)

/-! ## types and terms -/

def readTy (ts : List Token) : Read Ty ts := do
  let (t, ⟨r, _⟩) ← next ts
  match t.kind with
  | .ident => .ok (.base t.text, ⟨r, by omega⟩)
  | .bot => .ok (.bottom, ⟨r, by omega⟩)
  | .lparen =>
    let (a, ⟨r₁, _⟩) ← readTy r
    let (mk, ⟨r₂, _⟩) ← readConnective r₁
    let (b, ⟨r₃, _⟩) ← readTy r₂
    let (_, ⟨r₄, _⟩) ← expect .rparen r₃
    .ok (mk a b, ⟨r₄, by omega⟩)
  | _ => .error (.unexpected ts)
termination_by ts.length

/-- The term constructor that a keyword with one argument stands for. -/
def unary? : TokenKind → Option (Term → Term)
  | .inl => some .inl
  | .inr => some .inr
  | .car => some .fst
  | .cdr => some .snd
  | .abort => some .abort
  | _ => none

def readTerm (ts : List Token) : Read Term ts := do
  let (t, ⟨r, _⟩) ← next ts
  match t.kind with
  | .ident => .ok (.var t.text, ⟨r, by omega⟩)
  | .lparen =>
    let (k, ⟨r₀, _⟩) ← next r
    match k.kind with
    | .cons =>
      let (a, ⟨r₁, _⟩) ← readTerm r₀
      let (b, ⟨r₂, _⟩) ← readTerm r₁
      let (_, ⟨r₃, _⟩) ← expect .rparen r₂
      .ok (.pair a b, ⟨r₃, by omega⟩)
    | .case =>
      let (a, ⟨r₁, _⟩) ← readTerm r₀
      let (f, ⟨r₂, _⟩) ← readTerm r₁
      let (g, ⟨r₃, _⟩) ← readTerm r₂
      let (_, ⟨r₄, _⟩) ← expect .rparen r₃
      .ok (.case a f g, ⟨r₄, by omega⟩)
    | .lambda =>
      let (_, ⟨r₁, _⟩) ← expect .lparen r₀
      let (x, ⟨r₂, _⟩) ← expect .ident r₁
      let (_, ⟨r₃, _⟩) ← expect .colon r₂
      let (a, ⟨r₄, _⟩) ← readTy r₃
      let (_, ⟨r₅, _⟩) ← expect .rparen r₄
      let (b, ⟨r₆, _⟩) ← readTerm r₅
      let (_, ⟨r₇, _⟩) ← expect .rparen r₆
      .ok (.lambda x.text a b, ⟨r₇, by omega⟩)
    | kind =>
      match unary? kind with
      | none => .error (.unexpected r)
      | some mk =>
        let (a, ⟨r₁, _⟩) ← readTerm r₀
        let (_, ⟨r₂, _⟩) ← expect .rparen r₁
        .ok (mk a, ⟨r₂, by omega⟩)
  | _ => .error (.unexpected ts)
termination_by ts.length

/-! ## contexts and sequents -/

/-- Adds bindings to a context in order, up to the first name that is bound already. -/
def bindAll (Γ : Context) : List (Token × Ty) → Except Fault Context
  | [] => .ok Γ
  | (x, A) :: r =>
    if h : x.text ∈ Γ.bindings.map Prod.fst then .error (.duplicate x)
    else bindAll (Γ.push x.text A h) r

def readBindings (ts : List Token) : Read (List (Token × Ty)) ts := do
  let (x, ⟨r₁, _⟩) ← expect .ident ts
  let (_, ⟨r₂, _⟩) ← expect .colon r₁
  let (A, ⟨r₃, _⟩) ← readTy r₂
  let (t, ⟨r₄, _⟩) ← next r₃
  match t.kind with
  | .rbrace => .ok ([(x, A)], ⟨r₄, by omega⟩)
  | .comma =>
    let (bs, ⟨r₅, _⟩) ← readBindings r₄
    .ok ((x, A) :: bs, ⟨r₅, by omega⟩)
  | _ => .error (.unexpected r₃)
termination_by ts.length

def readContext (ts : List Token) : Read Context ts := do
  let (_, ⟨r₁, _⟩) ← expect .lbrace ts
  let (t, ⟨r₂, _⟩) ← next r₁
  if t.kind = .rbrace then .ok (.empty, ⟨r₂, by omega⟩)
  else
    let (bs, ⟨r₃, _⟩) ← readBindings r₁
    let Γ ← bindAll .empty bs
    .ok (Γ, ⟨r₃, by omega⟩)

def readSequent (ts : List Token) : Read Sequent ts := do
  let (Γ, ⟨r₁, _⟩) ← readContext ts
  let (_, ⟨r₂, _⟩) ← expect .turnstile r₁
  let (t, ⟨r₃, _⟩) ← readTerm r₂
  let (_, ⟨r₄, _⟩) ← expect .colon r₃
  let (A, ⟨r₅, _⟩) ← readTy r₄
  .ok (⟨Γ, t, A⟩, ⟨r₅, by omega⟩)

/-! ## derivations -/

/-- The rule that a word names, given the tokens after the derivation that it heads. -/
def resolveRule (name : Token) (rest : List Token) : Except Fault Rule :=
  match Rule.ofTag? name.text with
  | some rule => .ok rule
  | none =>
    match rest with
    | [] => .error (.unknownRule name [])
    | t :: r =>
      if t.kind = .lparen ∨ t.kind = .rparen then .error (.unknownRule name (t :: r))
      else .error (.unexpected (t :: r))

mutual

def readDerivation (ts : List Token) : Read Derivation ts := do
  let (_, ⟨r₁, _⟩) ← expect .lparen ts
  let (name, ⟨r₂, _⟩) ← expect .ident r₁
  let (s, ⟨r₃, _⟩) ← readSequent r₂
  let (ps, ⟨r₄, _⟩) ← readPremises r₃
  let (_, ⟨r₅, _⟩) ← expect .rparen r₄
  let rule ← resolveRule name r₅
  .ok (.node rule s ps, ⟨r₅, by omega⟩)
termination_by 2 * ts.length
decreasing_by omega

/-- Reads derivations as long as the next token opens one. -/
def readPremises (ts : List Token) :
    Except Fault (List Derivation × { r : List Token // r.length ≤ ts.length }) :=
  match ts with
  | [] => .ok ([], ⟨[], by simp⟩)
  | t :: r =>
    if t.kind = .lparen then do
      let (d, ⟨r₁, _⟩) ← readDerivation (t :: r)
      let (ds, ⟨r₂, _⟩) ← readPremises r₁
      .ok (d :: ds, ⟨r₂, by omega⟩)
    else .ok ([], ⟨t :: r, by simp⟩)
termination_by 2 * ts.length + 1
decreasing_by all_goals simp at * <;> omega

end

/-! ## whole texts -/

inductive Cause where
  | character (c : Char)
  | token
  | ending
  | duplicate (name : String)
  | rule (name : String)
  deriving DecidableEq, Repr

def Cause.message : Cause → String
  | .character c => "Unexpected character " ++ Text.quote (String.singleton c)
  | .token => "Unexpected token"
  | .ending => "Unexpected end of input"
  | .duplicate name => "Duplicate binding for " ++ Text.quote name
  | .rule name => "Unknown rule " ++ Text.quote name

structure SyntaxError where
  cause : Cause
  span : Span
  deriving DecidableEq, Repr

def Token.span (t : Token) : Span := ⟨t.pos, t.pos + t.text.length⟩

def Ending.error : Ending → SyntaxError
  | .eof pos => ⟨.ending, pos, pos⟩
  | .bad c pos => ⟨.character c, pos, pos + 1⟩

/-- The error that a fault is in a text whose tokens end as given. -/
def Fault.error (ending : Ending) : Fault → SyntaxError
  | .unexpected [] => ending.error
  | .unexpected (t :: _) => ⟨.token, t.span⟩
  | .duplicate x => ⟨.duplicate x.text, x.span⟩
  | .unknownRule name rest =>
    match rest, ending with
    | [], .bad c pos => (Ending.bad c pos).error
    | _, _ => ⟨.rule name.text, name.span⟩

/-- The error as a message about its source. -/
def SyntaxError.diagnostic (e : SyntaxError) (src : String) : Diagnostic :=
  ⟨e.cause.message, e.span, some src⟩

/-- Reads a whole text: nothing may follow the value. -/
def parseWith {α : Type} (read : (ts : List Token) → Read α ts) (src : String) :
    Except SyntaxError α :=
  let lexed := lex src.toList
  match read lexed.tokens with
  | .error f => .error (f.error lexed.ending)
  | .ok (a, ⟨[], _⟩) =>
    match lexed.ending with
    | .eof _ => .ok a
    | .bad c pos => .error (Ending.bad c pos).error
  | .ok (_, ⟨t :: r, _⟩) => .error ((Fault.unexpected (t :: r)).error lexed.ending)

def parseTy : String → Except SyntaxError Ty := parseWith readTy

def parseTerm : String → Except SyntaxError Term := parseWith readTerm

def parseContext : String → Except SyntaxError Context := parseWith readContext

def parseSequent : String → Except SyntaxError Sequent := parseWith readSequent

def parseDerivation : String → Except SyntaxError Derivation := parseWith readDerivation

end NaturalDeduction.Source
