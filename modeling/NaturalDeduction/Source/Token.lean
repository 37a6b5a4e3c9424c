/-!
# Tokens

* `TokenKind`    the kinds of token of the written syntax;
* `Token`        a token with its text, position and line;
* `lexeme?`      the token that starts a text: its kind, and how many characters follow the first;
* `lex`          the tokens of a text, up to its end or its first bad character.

Blanks, line feeds and comments (from `#` to before the next line feed) separate tokens.
-/

namespace NaturalDeduction.Source

inductive TokenKind where
  | ident
  | arrow | times | plus | turnstile | colon | comma
  | lparen | rparen | lbrace | rbrace
  | cons | inl | inr | case | car | cdr | abort | lambda | bot
  deriving DecidableEq, Repr

namespace TokenKind

/-- The name of a kind of token in a listing. -/
def name : TokenKind → String
  | ident => "IDENT"
  | arrow => "ARROW"
  | times => "TIMES"
  | plus => "PLUS"
  | turnstile => "TURNSTILE"
  | colon => "COLON"
  | comma => "COMMA"
  | lparen => "LPAREN"
  | rparen => "RPAREN"
  | lbrace => "LBRACE"
  | rbrace => "RBRACE"
  | cons => "CONS"
  | inl => "INL"
  | inr => "INR"
  | case => "CASE"
  | car => "CAR"
  | cdr => "CDR"
  | abort => "ABORT"
  | lambda => "LAMBDA"
  | bot => "BOT"

def reserved : List (String × TokenKind) :=
  [("cons", cons), ("inl", inl), ("inr", inr), ("case", case), ("car", car), ("cdr", cdr),
   ("abort", abort), ("lambda", lambda), ("bot", bot)]

/-- The kind of a word: a reserved word has its own, any other is an identifier. -/
def ofWord (w : String) : TokenKind := (reserved.lookup w).getD ident

end TokenKind

/-- A token, the position of its first character and the line that it stands on. -/
structure Token where
  kind : TokenKind
  text : String
  pos : Nat
  line : Nat
  deriving DecidableEq, Repr

def isSpacing (c : Char) : Bool := c == ' ' || c == '\t' || c == '\r'

def isWordStart (c : Char) : Bool :=
  ('A' ≤ c && c ≤ 'Z') || ('a' ≤ c && c ≤ 'z') || c == '_'

def isWordChar (c : Char) : Bool :=
  isWordStart c || ('0' ≤ c && c ≤ '9') || c == '\''

def symbol? : Char → Option TokenKind
  | 'λ' => some .lambda
  | '⊥' => some .bot
  | '→' => some .arrow
  | '*' => some .times
  | '×' => some .times
  | '+' => some .plus
  | '⊢' => some .turnstile
  | ':' => some .colon
  | ',' => some .comma
  | '(' => some .lparen
  | ')' => some .rparen
  | '\x7b' => some .lbrace
  | '\x7d' => some .rbrace
  | _ => none

/-- The token that starts with `c` and goes on in `r`: its kind, and how much of `r` it takes. -/
def lexeme? (c : Char) (r : List Char) : Option (TokenKind × Nat) :=
  if isWordStart c then
    let w := r.takeWhile isWordChar
    some (.ofWord (String.ofList (c :: w)), w.length)
  else if c == '-' && r.head? == some '>' then some (.arrow, 1)
  else if c == '|' && r.head? == some '-' then some (.turnstile, 1)
  else (symbol? c).map (·, 0)

/-- Where the tokens of a text end. -/
inductive Ending where
  | eof (pos : Nat)
  /-- at a character that starts no token -/
  | bad (c : Char) (pos : Nat)
  deriving DecidableEq, Repr

structure Lexed where
  tokens : List Token
  ending : Ending
  deriving DecidableEq, Repr

/-- Reads the tokens of the text `cs` at position `pos` on line `line`, after those in `acc`
(the last one first). -/
def lexFrom (cs : List Char) (pos line : Nat) (acc : List Token) : Lexed :=
  match cs with
  | [] => ⟨acc.reverse, .eof pos⟩
  | c :: r =>
    if c == '\n' then lexFrom r (pos + 1) (line + 1) acc
    else if isSpacing c then lexFrom r (pos + 1) line acc
    else if c == '#' then
      let n := (r.takeWhile (· != '\n')).length
      lexFrom (r.drop n) (pos + 1 + n) line acc
    else
      match lexeme? c r with
      | none => ⟨acc.reverse, .bad c pos⟩
      | some (kind, n) =>
        let text := String.ofList (c :: r.take n)
        lexFrom (r.drop n) (pos + 1 + n) line (⟨kind, text, pos, line⟩ :: acc)
termination_by cs.length
decreasing_by all_goals simp +arith

def lex (src : List Char) : Lexed := lexFrom src 0 1 []

end NaturalDeduction.Source
