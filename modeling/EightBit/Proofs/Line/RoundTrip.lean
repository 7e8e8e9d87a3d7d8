import EightBit.Proofs.Line.Derivation
import EightBit.Proofs.Line.Printing

namespace EightBit

namespace Grammar

variable {tokens : List Token} {words : List Word}

/-- The tokens derive from a rule, and make this tree but for the places. -/
def Makes {α : Type} (rule : List Token → α → Prop) (bare : α → α) (tokens : List Token)
    (tree : α) : Prop :=
  ∃ read, rule tokens read ∧ bare read = bare tree

theorem name_of_word {token : Token} {ident : Ident} (named : ident.IsName)
    (word : token.word = Word.name ident.name) :
    token.kind = .identifier ∧ token.ident.bare = ident.bare := by
  obtain ⟨kind, text⟩ := Word.mk.inj word
  obtain ⟨c, cs, letters, starts, continues⟩ := named
  have capitals : ∀ d ∈ c :: cs, Token.continuesCapitals d = true := by
    have first : Token.continuesCapitals c = true := by rw [Token.continuesCapitals, starts]; rfl
    exact List.forall_mem_cons.mpr ⟨first, continues⟩
  refine ⟨kind, congrArg (Ident.mk · ⟨0, 0⟩) ?_⟩
  calc String.ofList (token.text.map Char.toUpper)
    _ = String.ofList ((c :: cs).map Char.toUpper) := by rw [text, letters]
    _ = String.ofList (c :: cs) := by rw [Token.map_toUpper_of_continuesCapitals capitals]
    _ = ident.name := by rw [← letters, String.ofList_toList]

theorem directive_of_word {token : Token} {ident : Ident} (named : ident.IsDirective)
    (word : token.word = Word.directive ident.name) :
    token.kind = .directive ∧ token.ident.bare = ident.bare := by
  obtain ⟨kind, text⟩ := Word.mk.inj word
  obtain ⟨cs, letters, continues⟩ := named
  refine ⟨kind, congrArg (Ident.mk · ⟨0, 0⟩) ?_⟩
  calc String.ofList (token.text.map Char.toUpper)
    _ = String.ofList ('.' :: cs.map Char.toUpper) := by rw [text, letters]; rfl
    _ = String.ofList ('.' :: cs) := by rw [Token.map_toUpper_of_continuesCapitals continues]
    _ = ident.name := by rw [← letters, String.ofList_toList]

theorem isAtom_of_numeral {token : Token} {n : Nat} (numeral : token.word.Numeral n)
    (small : n ≤ 0x7FFFFFFFFFFFFFFF) : IsAtom token (.number (Int64.ofNat n)) := by
  generalize same : token.word = word at numeral
  cases numeral with
  | decimal some value =>
      obtain ⟨kind, rfl⟩ := Word.mk.inj same
      exact .number (.decimal kind) some value small
  | hexadecimal some value =>
      obtain ⟨kind, text⟩ := Word.mk.inj same
      exact .number (.hexadecimal kind) (by rw [text]; exact some) (by rw [text]; exact value) small
  | binary some value =>
      obtain ⟨kind, text⟩ := Word.mk.inj same
      exact .number (.binary kind) (by rw [text]; exact some) (by rw [text]; exact value) small

theorem makes_term {expr : Expr} (written : expr.Written words) (writable : expr.Writable)
    (single : expr.isBinary = false) (spelled : tokens.map Token.word = words) :
    Makes IsTerm Expr.bare tokens expr := by
  induction written generalizing tokens with
  | @number value n word same numeral =>
      obtain ⟨token, rfl, rfl⟩ := List.map_eq_singleton_iff.mp spelled
      have small : n ≤ 0x7FFFFFFFFFFFFFFF := by
        have bound := value.toInt_lt
        omega
      have number : Int64.ofNat n = value := by
        rw [← Int64.ofInt_eq_ofNat, ← same, Int64.ofInt_toInt]
      rw [← number]
      exact ⟨_, .atom (isAtom_of_numeral numeral small), rfl⟩
  | symbol =>
      obtain ⟨token, rfl, word⟩ := List.map_eq_singleton_iff.mp spelled
      obtain ⟨kind, same⟩ := name_of_word writable word
      exact ⟨_, .atom (.name kind), congrArg Expr.symbol same⟩
  | @unary op operand words inner ih =>
      obtain ⟨token, rest, rfl, word, spelled⟩ := List.map_eq_cons_iff.mp spelled
      obtain ⟨read, term, same⟩ := ih writable.1 writable.2 spelled
      have sign : token.unary? = some op := by
        have kind : token.kind = (Word.unary op).kind := congrArg Word.kind word
        rw [Token.unary?, kind]
        cases op <;> rfl
      exact ⟨_, .unary sign term, congrArg (Expr.unary op) same⟩
  | binary => cases single

theorem makes_expression {expr : Expr} (written : expr.Written words) (writable : expr.Writable)
    (spelled : tokens.map Token.word = words) : Makes IsExpression Expr.bare tokens expr := by
  induction expr generalizing tokens words with
  | binary op left right before _ =>
      cases written with
      | binary first second =>
          obtain ⟨left_writable, right_writable, single⟩ := writable
          obtain ⟨head, tail, rfl, opens, spelled⟩ := List.map_eq_append_iff.mp spelled
          obtain ⟨token, last, rfl, word, closes⟩ := List.map_eq_cons_iff.mp spelled
          obtain ⟨read, expression, same⟩ := before first left_writable opens
          obtain ⟨other, term, alike⟩ := makes_term second right_writable single closes
          have sign : token.binary? = some op := by
            have kind : token.kind = (Word.binary op).kind := congrArg Word.kind word
            rw [Token.binary?, kind]
            cases op <;> rfl
          exact ⟨_, .binary expression sign term, congrArg₂ (Expr.binary op) same alike⟩
  | _ =>
      obtain ⟨read, term, same⟩ := makes_term written writable rfl spelled
      exact ⟨read, .term term, same⟩

theorem eq_symbol_of_isExpression {token : Token} {expr : Expr}
    (expression : IsExpression [token] expr) (named : token.kind = .identifier) :
    expr = .symbol token.ident := by
  have read := Line.readExpression_of_whole 0 expression
  have alone := Line.readExpression_of_whole 0 (.term (.atom (.name named)))
  exact congrArg Reading.value (Except.ok.inj (read.symm.trans alone))

theorem makes_operandKind {first : Bool} {kind : OperandKind} (written : kind.Written words)
    (writable : kind.Writable first) (spelled : tokens.map Token.word = words) :
    Makes (IsOperandKind first) OperandKind.bare tokens kind := by
  cases written with
  | immediate inner =>
      obtain ⟨hash, rest, rfl, mark, spelled⟩ := List.map_eq_cons_iff.mp spelled
      obtain ⟨read, expression, same⟩ := makes_expression inner writable spelled
      exact ⟨_, .immediate (congrArg Word.kind mark) expression,
        congrArg OperandKind.immediate same⟩
  | @value expr words inner =>
      obtain ⟨writable, unlike⟩ := writable
      obtain ⟨read, expression, same⟩ := makes_expression inner writable spelled
      refine ⟨_, .value expression ?_, congrArg OperandKind.value same⟩
      rintro ⟨later, register, token, rfl, named, name⟩
      rw [eq_symbol_of_isExpression expression named] at same
      cases expr with
      | symbol ident =>
          have names : token.ident.bare.name = ident.bare.name :=
            congrArg Ident.name (Expr.symbol.inj same)
          exact unlike ident register later rfl (names.symm.trans name)
      | number | unary | binary => cases same
  | indirect inner =>
      obtain ⟨opening, rest, rfl, opens, spelled⟩ := List.map_eq_cons_iff.mp spelled
      obtain ⟨middle, last, rfl, within, ends⟩ := List.map_eq_append_iff.mp spelled
      obtain ⟨closing, rfl, closes⟩ := List.map_eq_singleton_iff.mp ends
      obtain ⟨read, expression, same⟩ := makes_expression inner writable within
      exact ⟨_, .indirect (congrArg Word.kind opens) expression (congrArg Word.kind closes),
        congrArg OperandKind.indirect same⟩
  | @register register =>
      obtain ⟨token, rfl, word⟩ := List.map_eq_singleton_iff.mp spelled
      obtain ⟨kind, text⟩ := Word.mk.inj word
      have name : token.ident.name = register.name := by
        rw [Token.ident, text]
        cases register <;> rfl
      exact ⟨_, .register writable ⟨token, rfl, kind, name⟩, rfl⟩
  | @string text written escapes =>
      obtain ⟨token, rfl, word⟩ := List.map_eq_singleton_iff.mp spelled
      obtain ⟨kind, letters⟩ := Word.mk.inj word
      have meaning : token.meaning = text := by
        rw [Token.meaning, letters, List.tail_cons, List.dropLast_concat, escapes.unescape_eq]
      rw [← meaning]
      exact ⟨_, .string kind, rfl⟩

theorem makes_operands {first : Bool} {operands : List Operand}
    (written : WrittenOperands operands words) (writable : WritableOperands first operands)
    (some : operands ≠ []) (spelled : tokens.map Token.word = words) :
    Makes (IsOperands first) (List.map Operand.bare) tokens operands := by
  induction written generalizing first tokens with
  | none => contradiction
  | last here =>
      obtain ⟨read, operand, same⟩ := makes_operandKind here writable.1 spelled
      exact ⟨_, .last operand, congrArg (fun kind => [Operand.mk kind ⟨0, 0⟩]) same⟩
  | comma here later ih =>
      obtain ⟨front, back, rfl, opens, spelled⟩ := List.map_eq_append_iff.mp spelled
      obtain ⟨mark, others, rfl, comma, spelled⟩ := List.map_eq_cons_iff.mp spelled
      obtain ⟨read, operand, same⟩ := makes_operandKind here writable.1 opens
      obtain ⟨more, listed, alike⟩ := ih writable.2 (List.cons_ne_nil _ _) spelled
      exact ⟨_, .comma operand (congrArg Word.kind comma) listed,
        congrArg₂ (fun kind more => Operand.mk kind ⟨0, 0⟩ :: more) same alike⟩

theorem makes_arguments {operands : List Operand} (written : WrittenOperands operands words)
    (writable : WritableOperands true operands) (spelled : tokens.map Token.word = words) :
    Makes IsArguments (List.map Operand.bare) tokens operands := by
  cases operands with
  | nil =>
      cases written
      rw [List.map_eq_nil_iff.mp spelled]
      exact ⟨[], .none, rfl⟩
  | cons first more =>
      obtain ⟨read, listed, same⟩ :=
        makes_operands written writable (List.cons_ne_nil _ _) spelled
      exact ⟨read, .some listed, same⟩

theorem makes_statement {labelled : Bool} {statement : Statement}
    (written : statement.Written words) (writable : statement.Writable)
    (free : ∀ name value, statement = .constant name value → labelled = false)
    (spelled : tokens.map Token.word = words) :
    Makes (IsStatement labelled) Statement.bare tokens statement := by
  cases written with
  | constant inner =>
      obtain ⟨first, rest, rfl, word, spelled⟩ := List.map_eq_cons_iff.mp spelled
      obtain ⟨mark, more, rfl, equals, spelled⟩ := List.map_eq_cons_iff.mp spelled
      obtain ⟨kind, name⟩ := name_of_word writable.1 word
      obtain ⟨read, expression, same⟩ := makes_expression inner writable.2 spelled
      exact ⟨_, .constant (free _ _ rfl) kind (congrArg Word.kind equals) expression,
        congrArg₂ Statement.constant name same⟩
  | directive listed =>
      obtain ⟨first, rest, rfl, word, spelled⟩ := List.map_eq_cons_iff.mp spelled
      obtain ⟨kind, name⟩ := directive_of_word writable.1 word
      obtain ⟨read, arguments, same⟩ := makes_arguments listed writable.2 spelled
      exact ⟨_, .directive kind arguments, congrArg₂ Statement.directive name same⟩
  | instruction listed =>
      obtain ⟨first, rest, rfl, word, spelled⟩ := List.map_eq_cons_iff.mp spelled
      obtain ⟨kind, name⟩ := name_of_word writable.1 word
      obtain ⟨read, arguments, same⟩ := makes_arguments listed writable.2 spelled
      exact ⟨_, .instruction kind (arguments.head_ne rfl) arguments,
        congrArg₂ Statement.instruction name same⟩

theorem makes_label {label : Option Ident} (named : ∀ ident ∈ label, ident.IsName)
    (spelled : tokens.map Token.word = Word.label label) :
    Makes IsLabel (Option.map Ident.bare) tokens label := by
  cases label with
  | none =>
      rw [List.map_eq_nil_iff.mp spelled]
      exact ⟨none, .none, rfl⟩
  | some ident =>
      obtain ⟨first, rest, rfl, word, spelled⟩ := List.map_eq_cons_iff.mp spelled
      obtain ⟨mark, rfl, colon⟩ := List.map_eq_singleton_iff.mp spelled
      obtain ⟨kind, name⟩ := name_of_word (named ident rfl) word
      exact ⟨_, .some kind (congrArg Word.kind colon), congrArg some name⟩

theorem makes_line {line : Line} (written : line.Written words) (writable : line.Writable)
    (spelled : tokens.map Token.word = words) : Makes IsLine Line.bare tokens line := by
  cases written with
  | bare =>
      obtain ⟨label, labelled, same⟩ := makes_label writable.label spelled
      exact ⟨_, .bare labelled, congrArg (Line.mk · none) same⟩
  | @statement label statement words states =>
      obtain ⟨front, back, rfl, opens, spelled⟩ := List.map_eq_append_iff.mp spelled
      obtain ⟨ident, labelled, same⟩ := makes_label writable.label opens
      have free : ∀ name value, statement = .constant name value → ident.isSome = false := by
        rintro name value rfl
        have unlabelled : label = none := writable.constant name value rfl
        rw [unlabelled] at same
        simpa using same
      obtain ⟨read, stated, alike⟩ :=
        makes_statement states (writable.statement statement rfl) free spelled
      exact ⟨_, .statement labelled stated, congrArg₂ Line.mk same (congrArg some alike)⟩

end Grammar

theorem Token.legible_of_sayable {token : Token} (sayable : token.kind.sayable = true) :
    token.Legible := by
  refine ⟨?_, ?_, ?_⟩
  all_goals
    intro kind
    rw [kind] at sayable
    cases sayable

theorem Token.legible_of_words {tokens : List Token} {words : List Word}
    (spelled : tokens.map Token.word = words) (plain : ∀ word ∈ words, word.Plain) :
    ∀ token ∈ tokens, token.Legible := by
  intro token member
  have among : token.word ∈ words := by
    rw [← spelled]
    exact List.mem_map_of_mem member
  exact legible_of_sayable (plain _ among).sayable

namespace Line

theorem exists_statement_of_bare_eq {line : Line} {statement : Statement}
    (same : line.bare = Line.bare ⟨none, some statement⟩) :
    ∃ read, line = ⟨none, some read⟩ ∧ read.bare = statement.bare := by
  obtain ⟨label, written⟩ := line
  obtain ⟨labels, statements⟩ := Line.mk.inj same
  have unlabelled : label = none := Option.map_eq_none_iff.mp labels
  obtain ⟨read, rfl, states⟩ := Option.map_eq_some_iff.mp statements
  exact ⟨read, by rw [unlabelled], states⟩

theorem parse_of_prints {line : Line} {text : List Char} (writable : line.Writable)
    (prints : line.Prints text) : ∃ read, parse text = .ok read ∧ read.bare = line.bare := by
  obtain ⟨words, written, spaced⟩ := prints
  have plain := written.plain writable
  have spelled : (Token.significantTokens text).map Token.word = words :=
    spaced.significant_eq plain
  have legible := Token.legible_of_words spelled plain
  obtain ⟨read, derived, same⟩ := Grammar.makes_line written writable spelled
  exact ⟨read, ofTokens_eq_ok_iff.mpr ⟨legible, derived⟩, same⟩

/-- Reading undoes printing: a tree that can be written is printed by some text, and every text
that prints it, however it spells numbers and strings and wherever it has blanks, is read as the
same tree, but for the places of its parts. -/
theorem parse_printed (line : Line) (writable : line.Writable) :
    (∃ text, line.Prints text) ∧
      ∀ text, line.Prints text → ∃ read, parse text = .ok read ∧ read.bare = line.bare :=
  ⟨exists_prints writable, fun _ prints => parse_of_prints writable prints⟩

theorem parse_printed_dense :
    let first : Expr := .binary .add
      (.binary .subtract (.symbol ⟨"X", ⟨0, 0⟩⟩) (.unary .negate (.unary .low (.number 31))))
      (.number 2)
    let line : Line := ⟨some ⟨"GO_1", ⟨0, 0⟩⟩, some (.directive ⟨".BYTE", ⟨0, 0⟩⟩
      [⟨.value first, ⟨0, 0⟩⟩, ⟨.string "\"é;\n".toList, ⟨0, 0⟩⟩, ⟨.register .x, ⟨0, 0⟩⟩])⟩
    let text := "GO_1:.BYTE X--<$1F+%010,\"\\\"é;\\n\",X".toList
    line.Writable ∧ line.Prints text ∧ ∃ read, parse text = .ok read ∧ read.bare = line.bare := by
  intro first line text
  have writable : line.Writable := by
    refine ⟨?_, ?_, nofun⟩
    · rintro label ⟨⟩
      exact ⟨'G', ['O', '_', '1'], rfl, rfl, List.all_eq_true.mp rfl⟩
    · rintro statement ⟨⟩
      have value : first.Writable :=
        ⟨⟨⟨'X', [], rfl, rfl, List.all_eq_true.mp rfl⟩, ⟨⟨Int.natCast_nonneg 31, rfl⟩, rfl⟩, rfl⟩,
          Int.natCast_nonneg 2, rfl⟩
      have directive : Ident.IsDirective ⟨".BYTE", ⟨0, 0⟩⟩ :=
        ⟨['B', 'Y', 'T', 'E'], rfl, List.all_eq_true.mp rfl⟩
      exact ⟨directive, ⟨value, nofun⟩, trivial, rfl, trivial⟩
  let sixteen : Word := ⟨.hexadecimal, "$1F".toList⟩
  let two : Word := ⟨.binary, "%010".toList⟩
  have high : Text.Denotes 16 "1F".toList 31 :=
    Text.readDigits_eq_some_iff_denotes.mp (by decide)
  have low : Text.Denotes 2 "010".toList 2 :=
    Text.readDigits_eq_some_iff_denotes.mp (by decide)
  have thirtyOne : sixteen.Numeral 31 := .hexadecimal (by decide) high
  have small : two.Numeral 2 := .binary (by decide) low
  have expression : first.Written [.name "X", .binary .subtract, .unary .negate, .unary .low,
      sixteen, .binary .add, two] :=
    .binary (.binary .symbol (.unary (.unary (.number rfl thirtyOne)))) (.number rfl small)
  have literal : Text.Escapes "\"é;\n".toList "\\\"é;\\n".toList :=
    .escape rfl <| .plain (by decide) (by decide) (by decide) <|
      .plain (by decide) (by decide) (by decide) <| .escape rfl .nothing
  have spaced : Word.Spaced [.name "GO_1", .colon, .directive ".BYTE", .name "X",
      .binary .subtract, .unary .negate, .unary .low, sixteen, .binary .add, two, .comma,
      .quoted "\\\"é;\\n".toList, .comma, .name "X"] text :=
    .tight (by decide) <| .tight (by decide) <| .tight (by decide) <|
      .wide (by decide) <|
      .tight (by decide) <| .tight (by decide) <| .tight (by decide) <| .tight (by decide) <|
      .tight (by decide) <| .tight (by decide) <| .tight (by decide) <| .tight (by decide) <|
      .tight (by decide) <| .tight (by decide) <| Word.spaced_nil
  have prints : line.Prints text :=
    ⟨_, .statement (.directive (.comma (.value expression) (.comma (.string literal)
      (.last .register)))), spaced⟩
  exact ⟨writable, prints, (parse_printed line writable).2 text prints⟩

end Line

end EightBit
