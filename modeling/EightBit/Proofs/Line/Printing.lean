import EightBit.Line
import EightBit.Proofs.Line.Words
import EightBit.Proofs.Text.Capitals
import EightBit.Proofs.Token.Spacing

/-!
Lines written as text. A tree can be written if its names are names in capitals, its numbers are
none below zero, and it needs no parentheses. It is written in many ways: numbers in three bases,
strings with more escape sequences or fewer, words with blanks between them or without.
-/
namespace EightBit

namespace Token

def isCapital (c : Char) : Bool := c.isUpper || c = '_'

def continuesCapitals (c : Char) : Bool := isCapital c || c.isDigit

theorem startsName_of_isCapital {c : Char} (capital : isCapital c = true) :
    startsName c = true := by
  rcases (Bool.or_eq_true _ _).mp capital with upper | underscore
  · have letter : c.isAlpha = true := (Bool.or_eq_true _ _).mpr (Or.inl upper)
    exact (Bool.or_eq_true _ _).mpr (Or.inl letter)
  · exact (Bool.or_eq_true _ _).mpr (Or.inr underscore)

theorem continuesName_of_continuesCapitals {c : Char} (capital : continuesCapitals c = true) :
    continuesName c = true := by
  rcases (Bool.or_eq_true _ _).mp capital with letter | digit
  · rcases (Bool.or_eq_true _ _).mp (startsName_of_isCapital letter) with alpha | underscore
    · exact continuesName_of_isAlpha alpha
    · exact (Bool.or_eq_true _ _).mpr (Or.inr underscore)
  · exact continuesName_of_isDigit digit

theorem toUpper_of_continuesCapitals {c : Char} (capital : continuesCapitals c = true) :
    c.toUpper = c := by
  have low : ¬ (97 ≤ c.toNat ∧ c.toNat ≤ 122) := by
    simp only [continuesCapitals, isCapital, Bool.or_eq_true, decide_eq_true_eq] at capital
    rcases capital with (upper | underscore) | digit
    · have bound : c.toNat ≤ 90 := UInt32.le_iff_toNat_le.mp (of_decide_eq_true upper).2
      omega
    · rw [underscore]
      decide
    · have bound : c.toNat ≤ 57 := (Char.isDigit_iff_toNat.mp digit).2
      omega
  rw [← Char.toNat_inj, Text.toNat_toUpper, if_neg low]

theorem map_toUpper_of_continuesCapitals {cs : List Char}
    (capitals : ∀ c ∈ cs, continuesCapitals c = true) : cs.map Char.toUpper = cs :=
  calc cs.map Char.toUpper
    _ = cs.map id :=
        List.map_congr_left fun c member => toUpper_of_continuesCapitals (capitals c member)
    _ = cs := cs.map_id

end Token

/-! The trees that can be written. -/

def Ident.IsName (ident : Ident) : Prop :=
  ∃ c cs, ident.name.toList = c :: cs ∧ Token.isCapital c = true ∧
    ∀ d ∈ cs, Token.continuesCapitals d = true

def Ident.IsDirective (ident : Ident) : Prop :=
  ∃ cs, ident.name.toList = '.' :: cs ∧ ∀ d ∈ cs, Token.continuesCapitals d = true

def Expr.isBinary : Expr → Bool
  | binary .. => true
  | _ => false

/-- Operators of two operands stand on no side but the left of others. -/
def Expr.Writable : Expr → Prop
  | number value => 0 ≤ value.toInt
  | symbol ident => ident.IsName
  | unary _ operand => operand.Writable ∧ operand.isBinary = false
  | binary _ left right => left.Writable ∧ right.Writable ∧ right.isBinary = false

/-- A name that is a register cannot be told from it, unless it is the first operand. -/
def OperandKind.Writable (first : Bool) : OperandKind → Prop
  | immediate expr | indirect expr => expr.Writable
  | value expr => expr.Writable ∧
    ∀ ident register, first = false → expr = .symbol ident → ident.name ≠ IndexRegister.name register
  | register _ => first = false
  | string _ => True

def WritableOperands (first : Bool) : List Operand → Prop
  | [] => True
  | operand :: more => operand.kind.Writable first ∧ WritableOperands false more

def Statement.Writable : Statement → Prop
  | constant name value => name.IsName ∧ value.Writable
  | directive name operands => name.IsDirective ∧ WritableOperands true operands
  | instruction name operands => name.IsName ∧ WritableOperands true operands

structure Line.Writable (line : Line) : Prop where
  label : ∀ label ∈ line.label, label.IsName
  statement : ∀ statement ∈ line.statement, statement.Writable
  constant : ∀ name value, line.statement = some (.constant name value) → line.label = none

/-! The words of a tree. -/

namespace Word

def colon : Word := ⟨.colon, [':']⟩

def equals : Word := ⟨.equals, ['=']⟩

def directive (text : String) : Word := ⟨.directive, text.toList⟩

def quoted (written : List Char) : Word := ⟨.string true, '"' :: (written ++ ['"'])⟩

def unary : UnaryOp → Word
  | .low => ⟨.less, ['<']⟩
  | .high => ⟨.greater, ['>']⟩
  | .negate => ⟨.minus, ['-']⟩

def binary : BinaryOp → Word
  | .add => ⟨.plus, ['+']⟩
  | .subtract => ⟨.minus, ['-']⟩

inductive Numeral (n : Nat) : Word → Prop
  | decimal {digits : List Char} (some : digits ≠ []) (value : Text.Denotes 10 digits n) :
      Numeral n ⟨.decimal, digits⟩
  | hexadecimal {digits : List Char} (some : digits ≠ []) (value : Text.Denotes 16 digits n) :
      Numeral n ⟨.hexadecimal, '$' :: digits⟩
  | binary {digits : List Char} (some : digits ≠ []) (value : Text.Denotes 2 digits n) :
      Numeral n ⟨.binary, '%' :: digits⟩

def label : Option Ident → List Word
  | none => []
  | some ident => [name ident.name, colon]

end Word

/-- No parentheses are written, whether the tree needs them or not. -/
inductive Expr.Written : Expr → List Word → Prop
  | number {value : Int64} {n : Nat} {word : Word} (same : value.toInt = n)
      (numeral : word.Numeral n) : Written (.number value) [word]
  | symbol {ident : Ident} : Written (.symbol ident) [Word.name ident.name]
  | unary {op : UnaryOp} {operand : Expr} {words : List Word} (inner : Written operand words) :
      Written (.unary op operand) (Word.unary op :: words)
  | binary {op : BinaryOp} {left right : Expr} {front back : List Word}
      (first : Written left front) (second : Written right back) :
      Written (.binary op left right) (front ++ Word.binary op :: back)

inductive OperandKind.Written : OperandKind → List Word → Prop
  | immediate {expr : Expr} {words : List Word} (inner : expr.Written words) :
      Written (.immediate expr) (Word.hash :: words)
  | value {expr : Expr} {words : List Word} (inner : expr.Written words) :
      Written (.value expr) words
  | indirect {expr : Expr} {words : List Word} (inner : expr.Written words) :
      Written (.indirect expr) (Word.openParen :: (words ++ [Word.closeParen]))
  | register {register : IndexRegister} : Written (.register register) [Word.name register.name]
  | string {text written : List Char} (escapes : Text.Escapes text written) :
      Written (.string text) [Word.quoted written]

inductive WrittenOperands : List Operand → List Word → Prop
  | none : WrittenOperands [] []
  | last {operand : Operand} {words : List Word} (here : operand.kind.Written words) :
      WrittenOperands [operand] words
  | comma {operand next : Operand} {more : List Operand} {words others : List Word}
      (here : operand.kind.Written words) (later : WrittenOperands (next :: more) others) :
      WrittenOperands (operand :: next :: more) (words ++ Word.comma :: others)

inductive Statement.Written : Statement → List Word → Prop
  | constant {name : Ident} {value : Expr} {words : List Word} (inner : value.Written words) :
      Written (.constant name value) (Word.name name.name :: Word.equals :: words)
  | directive {name : Ident} {operands : List Operand} {words : List Word}
      (listed : WrittenOperands operands words) :
      Written (.directive name operands) (Word.directive name.name :: words)
  | instruction {name : Ident} {operands : List Operand} {words : List Word}
      (listed : WrittenOperands operands words) :
      Written (.instruction name operands) (Word.name name.name :: words)

inductive Line.Written : Line → List Word → Prop
  | bare {label : Option Ident} : Written ⟨label, none⟩ (Word.label label)
  | statement {label : Option Ident} {statement : Statement} {words : List Word}
      (states : statement.Written words) :
      Written ⟨label, some statement⟩ (Word.label label ++ words)

/-- A text that is the line, with blanks wherever they may stand. -/
def Line.Prints (line : Line) (text : List Char) : Prop :=
  ∃ words, line.Written words ∧ Word.Spaced words text

/-! Every word of a line is read as it is written. -/

namespace Word

theorem plain_unary (op : UnaryOp) : (unary op).Plain := by
  cases op with | _ => exact plain_mark rfl fun _ => rfl

theorem plain_binary (op : BinaryOp) : (binary op).Plain := by
  cases op with | _ => exact plain_mark rfl fun _ => rfl

theorem Numeral.plain {n : Nat} {word : Word} (numeral : word.Numeral n) : word.Plain := by
  cases numeral with
  | @decimal digits some value =>
      have all : ∀ c ∈ digits, c.isDigit = true := by
        intro c member
        obtain ⟨_, digit⟩ := value.digitIn_of_mem member
        exact Token.isDigit_of_digitIn digit
      obtain ⟨first, rest, rfl⟩ := List.exists_cons_of_ne_nil some
      rw [List.forall_mem_cons] at all
      exact plain_of_run rfl rfl (Token.scan_of_isDigit all.1)
        (fun _ => Token.continuesName_of_isDigit) all.2
  | hexadecimal some value =>
      refine plain_of_run (p := Token.isHexDigit) rfl rfl (fun _ => rfl)
        (fun _ => Token.continuesName_of_isHexDigit) fun c member => ?_
      obtain ⟨_, digit⟩ := value.digitIn_of_mem member
      exact Token.isHexDigit_of_digitIn digit
  | binary some value =>
      refine plain_of_run (p := Token.isBinaryDigit) rfl rfl (fun _ => rfl)
        (fun _ => Token.continuesName_of_isBinaryDigit) fun c member => ?_
      obtain ⟨_, digit⟩ := value.digitIn_of_mem member
      exact Token.isBinaryDigit_of_digitIn digit

theorem plain_register (register : IndexRegister) : (name register.name).Plain := by
  cases register with | _ => exact plain_name rfl nofun

end Word

theorem Ident.IsName.plain {ident : Ident} (named : ident.IsName) :
    (Word.name ident.name).Plain := by
  obtain ⟨c, cs, text, starts, continues⟩ := named
  rw [Word.name, text]
  exact Word.plain_name (Token.startsName_of_isCapital starts)
    fun d member => Token.continuesName_of_continuesCapitals (continues d member)

theorem Ident.IsDirective.plain {ident : Ident} (named : ident.IsDirective) :
    (Word.directive ident.name).Plain := by
  obtain ⟨cs, text, continues⟩ := named
  rw [Word.directive, text]
  exact Word.plain_directive
    fun d member => Token.continuesName_of_continuesCapitals (continues d member)

theorem Expr.Written.plain {expr : Expr} {words : List Word} (written : expr.Written words)
    (writable : expr.Writable) : ∀ word ∈ words, word.Plain := by
  induction written with
  | number same numeral => exact List.forall_mem_singleton.mpr numeral.plain
  | symbol => exact List.forall_mem_singleton.mpr (Ident.IsName.plain writable)
  | @unary op operand words inner ih =>
      exact List.forall_mem_cons.mpr ⟨Word.plain_unary op, ih writable.1⟩
  | @binary op left right front back first second before behind =>
      obtain ⟨left, right, -⟩ := writable
      exact List.forall_mem_append.mpr
        ⟨before left, List.forall_mem_cons.mpr ⟨Word.plain_binary op, behind right⟩⟩

theorem OperandKind.Written.plain {first : Bool} {kind : OperandKind} {words : List Word}
    (written : kind.Written words) (writable : kind.Writable first) :
    ∀ word ∈ words, word.Plain := by
  cases written with
  | immediate inner =>
      exact List.forall_mem_cons.mpr
        ⟨Word.plain_mark rfl fun _ => rfl, inner.plain writable⟩
  | value inner => exact inner.plain writable.1
  | indirect inner =>
      have closing : Word.closeParen.Plain := Word.plain_mark rfl fun _ => rfl
      exact List.forall_mem_cons.mpr ⟨Word.plain_mark rfl fun _ => rfl,
        List.forall_mem_append.mpr
          ⟨inner.plain writable, List.forall_mem_singleton.mpr closing⟩⟩
  | @register register => exact List.forall_mem_singleton.mpr (Word.plain_register register)
  | string escapes => exact List.forall_mem_singleton.mpr (Word.plain_string escapes)

theorem WrittenOperands.plain {first : Bool} {operands : List Operand} {words : List Word}
    (written : WrittenOperands operands words) (writable : WritableOperands first operands) :
    ∀ word ∈ words, word.Plain := by
  induction written generalizing first with
  | none => exact List.forall_mem_nil _
  | last here => exact here.plain writable.1
  | comma here later ih =>
      exact List.forall_mem_append.mpr ⟨here.plain writable.1,
        List.forall_mem_cons.mpr ⟨Word.plain_mark rfl fun _ => rfl, ih writable.2⟩⟩

theorem Statement.Written.plain {statement : Statement} {words : List Word}
    (written : statement.Written words) (writable : statement.Writable) :
    ∀ word ∈ words, word.Plain := by
  cases written with
  | constant inner =>
      exact List.forall_mem_cons.mpr ⟨writable.1.plain, List.forall_mem_cons.mpr
        ⟨Word.plain_mark rfl fun _ => rfl, inner.plain writable.2⟩⟩
  | directive listed =>
      exact List.forall_mem_cons.mpr ⟨writable.1.plain, listed.plain writable.2⟩
  | instruction listed =>
      exact List.forall_mem_cons.mpr ⟨writable.1.plain, listed.plain writable.2⟩

theorem Word.plain_label {label : Option Ident} (named : ∀ ident ∈ label, ident.IsName) :
    ∀ word ∈ Word.label label, word.Plain := by
  cases label with
  | none => exact List.forall_mem_nil _
  | some ident =>
      have mark : Word.colon.Plain := plain_mark rfl fun _ => rfl
      exact List.forall_mem_cons.mpr
        ⟨(named ident rfl).plain, List.forall_mem_singleton.mpr mark⟩

theorem Line.Written.plain {line : Line} {words : List Word} (written : line.Written words)
    (writable : line.Writable) : ∀ word ∈ words, word.Plain := by
  cases written with
  | bare => exact Word.plain_label writable.label
  | statement states =>
      exact List.forall_mem_append.mpr
        ⟨Word.plain_label writable.label, states.plain (writable.statement _ rfl)⟩

/-! Every tree that can be written has words. -/

theorem Expr.exists_written {expr : Expr} (writable : expr.Writable) :
    ∃ words, expr.Written words := by
  induction expr with
  | number value =>
      obtain ⟨n, same⟩ := Int.eq_ofNat_of_zero_le writable
      have numeral : Word.Numeral n ⟨.decimal, (Text.digits 10 1 n).toList⟩ :=
        .decimal (Text.digits_ne_nil 10 1 n) (Text.denotes_digits (by decide) (by decide) 1 n)
      exact ⟨_, .number same numeral⟩
  | symbol ident => exact ⟨_, .symbol⟩
  | unary op operand ih =>
      obtain ⟨words, inner⟩ := ih writable.1
      exact ⟨_, .unary inner⟩
  | binary op left right before behind =>
      obtain ⟨front, first⟩ := before writable.1
      obtain ⟨back, second⟩ := behind writable.2.1
      exact ⟨_, .binary first second⟩

theorem OperandKind.exists_written {first : Bool} {kind : OperandKind}
    (writable : kind.Writable first) : ∃ words, kind.Written words := by
  cases kind with
  | immediate expr =>
      obtain ⟨words, inner⟩ := expr.exists_written writable
      exact ⟨_, .immediate inner⟩
  | value expr =>
      obtain ⟨words, inner⟩ := expr.exists_written writable.1
      exact ⟨_, .value inner⟩
  | indirect expr =>
      obtain ⟨words, inner⟩ := expr.exists_written writable
      exact ⟨_, .indirect inner⟩
  | register register => exact ⟨_, .register⟩
  | string text => exact ⟨_, .string (Text.escapes_escape text)⟩

theorem exists_writtenOperands {first : Bool} {operands : List Operand}
    (writable : WritableOperands first operands) : ∃ words, WrittenOperands operands words := by
  induction operands generalizing first with
  | nil => exact ⟨_, .none⟩
  | cons operand more ih =>
      obtain ⟨words, here⟩ := OperandKind.exists_written writable.1
      obtain ⟨others, later⟩ := ih writable.2
      cases more with
      | nil => exact ⟨_, .last here⟩
      | cons next rest => exact ⟨_, .comma here later⟩

theorem Statement.exists_written {statement : Statement} (writable : statement.Writable) :
    ∃ words, statement.Written words := by
  cases statement with
  | constant name value =>
      obtain ⟨words, inner⟩ := Expr.exists_written writable.2
      exact ⟨_, .constant inner⟩
  | directive name operands =>
      obtain ⟨words, listed⟩ := exists_writtenOperands writable.2
      exact ⟨_, .directive listed⟩
  | instruction name operands =>
      obtain ⟨words, listed⟩ := exists_writtenOperands writable.2
      exact ⟨_, .instruction listed⟩

theorem Line.exists_prints {line : Line} (writable : line.Writable) :
    ∃ text, line.Prints text := by
  obtain ⟨label, statement⟩ := line
  cases statement with
  | none => exact ⟨_, _, .bare, Word.spaced_spread _⟩
  | some statement =>
      obtain ⟨words, states⟩ := Statement.exists_written (writable.statement statement rfl)
      exact ⟨_, _, .statement states, Word.spaced_spread _⟩

end EightBit
