import EightBit.Proofs.Layout.Alike
import EightBit.Proofs.Line.Joined
import EightBit.Proofs.Line.RoundTrip

namespace EightBit

def byteLine (operands : List Char) : List Char := ".BYTE ".toList ++ operands

def Line.PlacesBytes (text : List Char) (items : List DataItem) : Prop :=
  ∃ name operands, Line.parse text = .ok ⟨none, some (.directive name operands)⟩ ∧
    Directive.ofName? name.name = some .byte ∧
    Layout.dataContent .byte name operands = .ok (.bytes items)

/-- The text has no comment and is, alone on a line for bytes, a single operand: this value or
string. -/
structure ByteOperand (text : List Char) (item : DataItem) : Prop where
  free : ∀ token ∈ Token.tokens text, token.kind ≠ .comment
  alone : ∃ name operand,
    Line.parse (byteLine text) = .ok ⟨none, some (.directive name [operand])⟩ ∧
      Layout.dataItem? operand = some item

namespace DataItem

def isRegisterName : DataItem → Bool
  | value (.symbol ident) => ident.name = "X" || ident.name = "Y"
  | _ => false

def kind : DataItem → OperandKind
  | value expr => .value expr
  | string text => .string text

theorem exists_of_bare {kind : OperandKind} {item : DataItem} (same : kind.bare = item.kind.bare) :
    ∃ other : DataItem, kind = other.kind ∧ other.bare = item.bare := by
  cases item with
  | value expr =>
      cases kind with
      | value other =>
          exact ⟨.value other, rfl, congrArg DataItem.value (OperandKind.value.inj same)⟩
      | immediate | indirect | register | string => cases same
  | string text =>
      cases kind with
      | string other =>
          exact ⟨.string other, rfl, congrArg DataItem.string (OperandKind.string.inj same)⟩
      | immediate | indirect | register | value => cases same

theorem eq_string_of_bare {item : DataItem} {text : List Char} (same : item.bare = string text) :
    item = string text := by
  cases item with
  | string => exact same
  | value => cases same

end DataItem

namespace Layout

theorem dataItem?_eq_some_iff {operand : Operand} {item : DataItem} :
    dataItem? operand = some item ↔ operand.kind = item.kind := by
  obtain ⟨kind, span⟩ := operand
  cases kind <;> cases item <;> simp [dataItem?, DataItem.kind]

theorem collect_dataItem? (fault : DirectiveFault) {operands : List Operand}
    {items : List DataItem} (same : operands.map (·.kind.bare) = items.map (·.kind.bare)) :
    ∃ others, collect dataItem? fault operands = .ok others ∧
      others.map DataItem.bare = items.map DataItem.bare := by
  induction operands generalizing items with
  | nil =>
      cases items with
      | nil => exact ⟨[], rfl, rfl⟩
      | cons => cases same
  | cons operand rest ih =>
      cases items with
      | nil => cases same
      | cons item more =>
          obtain ⟨first, later⟩ := List.cons.inj same
          obtain ⟨other, kind, bare⟩ := DataItem.exists_of_bare first
          obtain ⟨others, collected, bares⟩ := ih later
          refine ⟨other :: others, ?_, congrArg₂ List.cons bare bares⟩
          rw [collect, dataItem?_eq_some_iff.mpr kind]
          simp only [collected, Except.map]

end Layout

namespace Word

def byteWord : Word := ⟨.directive, ".BYTE".toList⟩

theorem significant_byteLine (text : List Char) :
    significant (byteLine text) = byteWord :: significant text := by
  have scanned : Token.scan '.' ("BYTE".toList ++ ' ' :: text) = (.directive, 4) := by
    have stops : Token.continuesName ' ' = false := by decide
    have name := Token.run_append_of_stop stops "BYTE".toList text
    exact congrArg (Prod.mk TokenKind.directive) name
  have whole : byteLine text = '.' :: ("BYTE".toList ++ ' ' :: text) := rfl
  have blank : significant (' ' :: text) = significant text := by
    rw [← significant_dropWhile, List.dropWhile_cons_of_pos rfl, significant_dropWhile]
  rw [whole, significant_cons scanned]
  exact congrArg (byteWord :: ·) blank

end Word

theorem TokenKind.sayable_of_legible {token : Token} (legible : token.Legible)
    (kept : token.kind.significant = true) : token.kind.sayable = true := by
  obtain ⟨known, string, character⟩ := legible
  unfold TokenKind.sayable
  split
  · contradiction
  · contradiction
  · contradiction
  · rename_i comment
    rw [comment] at kept
    cases kept
  · rename_i blank
    rw [blank] at kept
    cases kept
  · rfl

theorem Line.parse_byteLine {text : List Char} {part : List Word} {parts : List (List Word)}
    {kind : OperandKind} {kinds : List OperandKind}
    (words : Word.significant text = List.intercalate [Word.comma] (part :: parts))
    (sayable : ∀ word ∈ Word.significant text, word.kind.sayable = true)
    (head : Grammar.Spells true part kind)
    (tail : List.Forall₂ (Grammar.Spells false) parts kinds) :
    ∃ name operands, parse (byteLine text) = .ok ⟨none, some (.directive name operands)⟩ ∧
      Directive.ofName? name.name = some .byte ∧
      operands.map (·.kind.bare) = kind :: kinds := by
  have all : (Token.significantTokens (byteLine text)).map Token.word =
      Word.byteWord :: Word.significant text := Word.significant_byteLine text
  obtain ⟨name, more, tokens, mark, rest⟩ := List.map_eq_cons_iff.mp all
  have arguments := rest.trans words
  obtain ⟨operands, listed, same⟩ := Grammar.isOperands_of_spells head tail arguments
  have named : name.kind = .directive := congrArg Word.kind mark
  have spelling : name.ident.name = ".BYTE" := by
    have written : name.text = ".BYTE".toList := congrArg Word.text mark
    rw [Token.ident, written]
    rfl
  have legible : ∀ token ∈ Token.significantTokens (byteLine text), token.Legible := by
    rw [tokens]
    refine List.forall_mem_cons.mpr ⟨Token.legible_of_sayable (by rw [named]; rfl), ?_⟩
    intro token member
    have word : token.word ∈ more.map Token.word := List.mem_map_of_mem member
    rw [rest] at word
    exact Token.legible_of_sayable (sayable token.word word)
  refine ⟨name.ident, operands, ofTokens_eq_ok_iff.mpr ⟨legible, ?_⟩, by rw [spelling]; rfl, same⟩
  rw [tokens]
  exact .statement .none (.directive named (.some listed))

namespace ByteOperand

open Grammar

variable {text : List Char} {item : DataItem}

theorem spelled (operand : ByteOperand text item) :
    (∀ word ∈ Word.significant text, word.kind.sayable = true) ∧
      ∃ tokens, tokens.map Token.word = Word.significant text ∧
        IsOperandKind true tokens item.kind := by
  obtain ⟨name, ⟨kind, span⟩, read, found⟩ := operand.alone
  obtain ⟨legible, derived⟩ := Line.ofTokens_eq_ok_iff.mp read
  have words : (Token.significantTokens (byteLine text)).map Token.word =
      Word.byteWord :: Word.significant text := Word.significant_byteLine text
  have kept : ∀ token ∈ Token.significantTokens (byteLine text), token.kind.significant = true :=
    fun token member => (List.mem_filter.mp member).2
  generalize Token.significantTokens (byteLine text) = tokens at legible derived words kept
  cases derived with
  | statement labelled stated =>
      cases labelled
      cases stated with
      | @directive first rest operands named arguments =>
          obtain ⟨-, mine⟩ := List.cons.inj words
          cases arguments with
          | some listed =>
              cases listed with
              | comma operand parts others => cases others
              | last spoken =>
                  rw [← Layout.dataItem?_eq_some_iff.mp found]
                  refine ⟨fun word member => ?_, _, mine, spoken⟩
                  rw [← mine] at member
                  obtain ⟨token, among, rfl⟩ := List.mem_map.mp member
                  have inside := List.mem_cons_of_mem first among
                  exact TokenKind.sayable_of_legible (legible token inside) (kept token inside)

theorem endsAtComma (operand : ByteOperand text item) : Word.EndsAtComma text := by
  intro token member
  have free := operand.free token member
  have sayable (kept : token.kind.significant = true) : token.kind.sayable = true :=
    operand.spelled.1 token.word (List.mem_map_of_mem (List.mem_filter.mpr ⟨member, kept⟩))
  unfold TokenKind.endsAtComma
  split
  · contradiction
  · rename_i kind
    rw [kind] at sayable
    cases sayable rfl
  · rename_i kind
    rw [kind] at sayable
    cases sayable rfl
  · rfl

/-- The operand is the same behind a comma, unless it is the name of a register. -/
theorem spells_behind_comma (operand : ByteOperand text item)
    (other : item.isRegisterName = false) :
    Spells false (Word.significant text) item.kind.bare := by
  obtain ⟨-, tokens, words, spoken⟩ := operand.spelled
  refine ⟨tokens, item.kind, words, spoken.behind_comma ?_, rfl⟩
  rintro register ⟨token, rfl, kind, named⟩
  -- a single name is an expression, and the only reading of the token
  have name : IsOperandKind true [token] (.value (.symbol token.ident)) :=
    .value (.term (.atom (.name kind))) nofun
  have ends : Line.OperandEnds [] := nofun
  have same := (Line.readOperand_of_isOperandKind 0 spoken ends).symm.trans
    (Line.readOperand_of_isOperandKind 0 name ends)
  have kinds : item.kind = .value (.symbol token.ident) :=
    congrArg (fun reading => reading.value.kind) (Except.ok.inj same)
  cases item with
  | string => cases kinds
  | value expr =>
      cases kinds
      have isName : (DataItem.value (.symbol token.ident)).isRegisterName = true := by
        simp only [DataItem.isRegisterName, named]
        cases register <;> rfl
      exact Bool.false_ne_true (other.symm.trans isName)

theorem sayable_intercalate {texts : List (List Char)} {items : List DataItem}
    (operands : List.Forall₂ ByteOperand texts items) :
    ∀ word ∈ List.intercalate [Word.comma] (texts.map Word.significant),
      word.kind.sayable = true := by
  induction operands with
  | nil => exact List.forall_mem_nil _
  | cons first later ih =>
      cases later with
      | nil =>
          rw [List.map_singleton, List.intercalate_singleton]
          exact first.spelled.1
      | cons second more =>
          rw [List.map_cons, List.map_cons, List.intercalate_cons_cons, List.append_assoc,
            List.singleton_append]
          exact List.forall_mem_append.mpr
            ⟨first.spelled.1, List.forall_mem_cons.mpr ⟨rfl, ih⟩⟩

theorem endsAtComma_of_mem {texts : List (List Char)} {items : List DataItem}
    (operands : List.Forall₂ ByteOperand texts items) :
    ∀ text ∈ texts, Word.EndsAtComma text := by
  induction operands with
  | nil => exact List.forall_mem_nil _
  | cons first later ih => exact List.forall_mem_cons.mpr ⟨first.endsAtComma, ih⟩

theorem spells_of_names {texts : List (List Char)} {items : List DataItem}
    (operands : List.Forall₂ ByteOperand texts items)
    (names : ∀ item ∈ items, item.isRegisterName = false) :
    List.Forall₂ (Spells false) (texts.map Word.significant) (items.map (·.kind.bare)) := by
  induction operands with
  | nil => exact .nil
  | cons first later ih =>
      obtain ⟨now, others⟩ := List.forall_mem_cons.mp names
      exact .cons (first.spells_behind_comma now) (ih others)

theorem placesBytes {texts : List (List Char)} {items : List DataItem}
    (first : ByteOperand text item) (others : List.Forall₂ ByteOperand texts items)
    (names : ∀ item ∈ items, item.isRegisterName = false) :
    ∃ placed, Line.PlacesBytes (byteLine (List.intercalate [','] (text :: texts))) placed ∧
      placed.map DataItem.bare = (item :: items).map DataItem.bare := by
  have operands : List.Forall₂ ByteOperand (text :: texts) (item :: items) := .cons first others
  have words := Word.significant_intercalate (endsAtComma_of_mem operands)
  have head : Spells true (Word.significant text) item.kind.bare := by
    obtain ⟨-, tokens, mine, spoken⟩ := first.spelled
    exact ⟨tokens, item.kind, mine, spoken, rfl⟩
  obtain ⟨name, listed, read, named, kinds⟩ := Line.parse_byteLine words
    (by rw [words]; exact sayable_intercalate operands) head (spells_of_names others names)
  have same : listed.map (·.kind.bare) = (item :: items).map (·.kind.bare) := kinds
  obtain ⟨placed, collected, bares⟩ := Layout.collect_dataItem? .valueOrStringExpected same
  refine ⟨placed, ⟨name, listed, read, named, ?_⟩, bares⟩
  have some : listed.isEmpty = false := by
    cases listed with
    | nil => cases kinds
    | cons => rfl
  simp only [Layout.dataContent, some, Bool.false_eq_true, ↓reduceIte, collected, Except.map]

theorem quoted {cs written : List Char} (escapes : Text.Escapes cs written) :
    ByteOperand (Word.quoted written).text (.string cs) := by
  let token : Token := ⟨.string true, (Word.quoted written).text, 0⟩
  have scanned : Token.scan '"' (written ++ ['"']) = (.string true, written.length + 1) :=
    congrArg (fun found => (TokenKind.string found.1, found.2)) (escapes.quoted_eq [])
  have length : (written ++ ['"']).length = written.length + 1 := List.length_append
  have only : Token.tokens token.text = [token] := by
    change Token.tokensFrom 0 ('"' :: (written ++ ['"'])) = [token]
    rw [Token.tokensFrom]
    simp only [scanned, ← length, List.take_length, List.drop_length, Token.tokensFrom]
    rfl
  have words : Word.significant token.text = List.intercalate [Word.comma] [[token.word]] := by
    rw [Word.significant, Token.significantTokens, only]
    rfl
  have sayable : ∀ word ∈ Word.significant token.text, word.kind.sayable = true := by
    rw [words, List.intercalate_singleton]
    exact List.forall_mem_singleton.mpr rfl
  have makes : Makes (IsOperandKind true) OperandKind.bare [token] (DataItem.string cs).kind :=
    makes_operandKind (.string escapes) trivial rfl
  obtain ⟨spoken, derived, same⟩ := makes
  obtain ⟨name, operands, read, -, kinds⟩ :=
    Line.parse_byteLine words sayable ⟨[token], spoken, rfl, derived, same⟩ .nil
  obtain ⟨operand, rfl, kind⟩ := List.map_eq_singleton_iff.mp kinds
  obtain ⟨other, found, bare⟩ := DataItem.exists_of_bare kind
  rw [DataItem.eq_string_of_bare bare] at found
  refine ⟨?_, name, operand, read, Layout.dataItem?_eq_some_iff.mpr found⟩
  rw [only, List.forall_mem_singleton]
  exact TokenKind.noConfusion

end ByteOperand

end EightBit
