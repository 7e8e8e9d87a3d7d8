import EightBit.Line.Parser
import EightBit.Proofs.Outcome
import EightBit.Proofs.Text.Positional

/-!
The grammar of a line, over its significant tokens:

    line      = [name ":"] [statement]
    statement = name "=" expr | name [operands] | directive [operands]
    operands  = operand {"," operand}
    operand   = "#" expr | "(" expr ")" | string | register | expr
    expr      = term {("+" | "-") term}
    term      = ("<" | ">" | "-") term | name | number | character

A constant, `name "=" expr`, has no label. An operand is a register if it is X or Y alone, and not
the first. Every derivation makes a tree of its tokens, with the places they stand at. The readers
of a line accept what the grammar derives, nothing else, and make the same tree of it.
-/
namespace EightBit

def Token.Legible (token : Token) : Prop :=
  token.kind ≠ .unknown ∧ token.kind ≠ .string false ∧ token.kind ≠ .character false

namespace Grammar

def lastStop (tokens : List Token) : Nat := tokens.getLast?.elim 0 Token.stop

def covering (tokens : List Token) : Span :=
  .between (tokens.head?.elim 0 (·.start)) (lastStop tokens)

inductive IsNumeral (token : Token) : Nat → List Char → Prop
  | hexadecimal (kind : token.kind = .hexadecimal) : IsNumeral token 16 token.text.tail
  | decimal (kind : token.kind = .decimal) : IsNumeral token 10 token.text
  | binary (kind : token.kind = .binary) : IsNumeral token 2 token.text.tail

inductive IsAtom (token : Token) : Expr → Prop
  | name (kind : token.kind = .identifier) : IsAtom token (.symbol token.ident)
  | number {base n : Nat} {digits : List Char} (numeral : IsNumeral token base digits)
      (some : digits ≠ []) (value : Text.Denotes base digits n) (small : n ≤ 0x7FFFFFFFFFFFFFFF) :
      IsAtom token (.number (Int64.ofNat n))
  | character {closed : Bool} {c : Char} (kind : token.kind = .character closed)
      (single : token.meaning = [c]) : IsAtom token (.number (Int64.ofNat c.toNat))

inductive IsTerm : List Token → Expr → Prop
  | atom {token : Token} {expr : Expr} (atom : IsAtom token expr) : IsTerm [token] expr
  | unary {token : Token} {op : UnaryOp} {tokens : List Token} {expr : Expr}
      (sign : token.unary? = some op) (inner : IsTerm tokens expr) :
      IsTerm (token :: tokens) (.unary op expr)

/-- Operators of two operands bind from the left. -/
inductive IsExpression : List Token → Expr → Prop
  | term {tokens : List Token} {expr : Expr} (term : IsTerm tokens expr) : IsExpression tokens expr
  | binary {token : Token} {op : BinaryOp} {front back : List Token} {left right : Expr}
      (first : IsExpression front left) (sign : token.binary? = some op)
      (second : IsTerm back right) :
      IsExpression (front ++ token :: back) (.binary op left right)

def IsRegister (tokens : List Token) (register : IndexRegister) : Prop :=
  ∃ token, tokens = [token] ∧ token.kind = .identifier ∧ token.ident.name = register.name

inductive IsOperandKind (first : Bool) : List Token → OperandKind → Prop
  | immediate {hash : Token} {tokens : List Token} {expr : Expr} (mark : hash.kind = .hash)
      (inner : IsExpression tokens expr) : IsOperandKind first (hash :: tokens) (.immediate expr)
  | indirect {opening closing : Token} {tokens : List Token} {expr : Expr}
      (opens : opening.kind = .openParen) (inner : IsExpression tokens expr)
      (closes : closing.kind = .closeParen) :
      IsOperandKind first (opening :: (tokens ++ [closing])) (.indirect expr)
  | string {token : Token} {closed : Bool} (kind : token.kind = .string closed) :
      IsOperandKind first [token] (.string token.meaning)
  | register {tokens : List Token} {register : IndexRegister} (later : first = false)
      (named : IsRegister tokens register) : IsOperandKind first tokens (.register register)
  | value {tokens : List Token} {expr : Expr} (inner : IsExpression tokens expr)
      (other : ¬ (first = false ∧ ∃ register, IsRegister tokens register)) :
      IsOperandKind first tokens (.value expr)

inductive IsOperands : Bool → List Token → List Operand → Prop
  | last {first : Bool} {tokens : List Token} {kind : OperandKind}
      (operand : IsOperandKind first tokens kind) :
      IsOperands first tokens [⟨kind, covering tokens⟩]
  | comma {first : Bool} {tokens more : List Token} {comma : Token} {kind : OperandKind}
      {operands : List Operand} (operand : IsOperandKind first tokens kind)
      (parts : comma.kind = .comma) (others : IsOperands false more operands) :
      IsOperands first (tokens ++ comma :: more) (⟨kind, covering tokens⟩ :: operands)

inductive IsArguments : List Token → List Operand → Prop
  | none : IsArguments [] []
  | some {tokens : List Token} {operands : List Operand}
      (listed : IsOperands true tokens operands) : IsArguments tokens operands

inductive IsStatement (labelled : Bool) : List Token → Statement → Prop
  | constant {name equals : Token} {tokens : List Token} {expr : Expr} (free : labelled = false)
      (named : name.kind = .identifier) (sign : equals.kind = .equals)
      (value : IsExpression tokens expr) :
      IsStatement labelled (name :: equals :: tokens) (.constant name.ident expr)
  | instruction {name : Token} {tokens : List Token} {operands : List Operand}
      (named : name.kind = .identifier) (other : ∀ next ∈ tokens.head?, next.kind ≠ .equals)
      (arguments : IsArguments tokens operands) :
      IsStatement labelled (name :: tokens) (.instruction name.ident operands)
  | directive {name : Token} {tokens : List Token} {operands : List Operand}
      (named : name.kind = .directive) (arguments : IsArguments tokens operands) :
      IsStatement labelled (name :: tokens) (.directive name.ident operands)

inductive IsLabel : List Token → Option Ident → Prop
  | none : IsLabel [] none
  | some {name colon : Token} (named : name.kind = .identifier) (sign : colon.kind = .colon) :
      IsLabel [name, colon] (some name.ident)

inductive IsLine : List Token → Line → Prop
  | bare {tokens : List Token} {label : Option Ident} (labelled : IsLabel tokens label) :
      IsLine tokens ⟨label, none⟩
  | statement {front tokens : List Token} {label : Option Ident} {statement : Statement}
      (labelled : IsLabel front label) (stated : IsStatement label.isSome tokens statement) :
      IsLine (front ++ tokens) ⟨label, some statement⟩

/-! What a derivation starts with, and that it takes a token at least. -/

variable {tokens : List Token} {expr : Expr}

theorem lastStop_append (front : List Token) {back : List Token} (some : back ≠ []) :
    lastStop (front ++ back) = lastStop back := by
  rw [lastStop, lastStop, List.getLast?_append_of_ne_nil front some]

theorem lastStop_cons (token : Token) (some : tokens ≠ []) :
    lastStop (token :: tokens) = lastStop tokens :=
  lastStop_append [token] some

theorem IsAtom.unary?_eq_none {token : Token} (atom : IsAtom token expr) :
    token.unary? = none := by
  unfold Token.unary?
  cases atom with
  | name kind => rw [kind]
  | number numeral some value small => cases numeral with | _ kind => rw [kind]
  | character kind single => rw [kind]

def startsTerm : TokenKind → Bool
  | .less | .greater | .minus => true
  | .identifier | .hexadecimal | .decimal | .binary | .character _ => true
  | _ => false

theorem IsAtom.startsTerm {token : Token} (atom : IsAtom token expr) :
    startsTerm token.kind = true := by
  cases atom with
  | name kind => rw [kind]; rfl
  | number numeral some value small => cases numeral with | _ kind => rw [kind]; rfl
  | character kind single => rw [kind]; rfl

theorem startsTerm_of_unary? {token : Token} {op : UnaryOp} (sign : token.unary? = some op) :
    startsTerm token.kind = true := by
  unfold Token.unary? at sign
  split at sign
  · rename_i kind; rw [kind]; rfl
  · rename_i kind; rw [kind]; rfl
  · rename_i kind; rw [kind]; rfl
  · cases sign

theorem IsTerm.head (term : IsTerm tokens expr) :
    ∃ token rest, tokens = token :: rest ∧ startsTerm token.kind = true := by
  cases term with
  | atom atom => exact ⟨_, _, rfl, atom.startsTerm⟩
  | unary sign inner => exact ⟨_, _, rfl, startsTerm_of_unary? sign⟩

theorem IsExpression.head (expression : IsExpression tokens expr) :
    ∃ token rest, tokens = token :: rest ∧ startsTerm token.kind = true := by
  induction expression with
  | term term => exact term.head
  | binary first sign second ih =>
      obtain ⟨token, rest, rfl, starts⟩ := ih
      exact ⟨token, _, List.cons_append, starts⟩

def startsOperand : TokenKind → Bool
  | .hash | .openParen | .string _ => true
  | kind => startsTerm kind

theorem IsOperandKind.head {first : Bool} {kind : OperandKind}
    (operand : IsOperandKind first tokens kind) :
    ∃ token rest, tokens = token :: rest ∧ startsOperand token.kind = true := by
  cases operand with
  | immediate mark inner => exact ⟨_, _, rfl, by rw [mark]; rfl⟩
  | indirect opens inner closes => exact ⟨_, _, rfl, by rw [opens]; rfl⟩
  | string kind => exact ⟨_, _, rfl, by rw [kind]; rfl⟩
  | register later named =>
      obtain ⟨token, rfl, kind, name⟩ := named
      exact ⟨token, [], rfl, by rw [kind]; rfl⟩
  | value inner other =>
      obtain ⟨token, rest, rfl, starts⟩ := inner.head
      refine ⟨token, rest, rfl, ?_⟩
      unfold startsOperand
      split
      · rfl
      · rfl
      · rfl
      · exact starts

theorem IsOperands.head {first : Bool} {operands : List Operand}
    (listed : IsOperands first tokens operands) :
    ∃ token rest, tokens = token :: rest ∧ startsOperand token.kind = true := by
  cases listed with
  | last operand => exact operand.head
  | comma operand parts others =>
      obtain ⟨token, rest, rfl, starts⟩ := operand.head
      exact ⟨token, _, List.cons_append, starts⟩

/-- Operands start with no mark that would make the name before them something else. -/
theorem IsArguments.head_ne {operands : List Operand} {kind : TokenKind}
    (arguments : IsArguments tokens operands) (mark : startsOperand kind = false) :
    ∀ next ∈ tokens.head?, next.kind ≠ kind := by
  cases arguments with
  | none => nofun
  | some listed =>
      obtain ⟨token, rest, rfl, starts⟩ := listed.head
      intro next member same
      cases member
      rw [same, mark] at starts
      cases starts

theorem IsTerm.ne_nil (term : IsTerm tokens expr) : tokens ≠ [] := by
  cases term <;> exact List.cons_ne_nil _ _

theorem IsExpression.ne_nil (expression : IsExpression tokens expr) : tokens ≠ [] := by
  cases expression with
  | term term => exact term.ne_nil
  | binary first sign second => simp

end Grammar

end EightBit
