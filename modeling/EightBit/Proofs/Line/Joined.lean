import EightBit.Proofs.Line.Derivation
import EightBit.Proofs.Token.Joined

namespace EightBit

namespace Token

theorem alike_of_word {first second : Token} (same : first.word = second.word) :
    first.Alike second := by
  have kind : first.kind = second.kind := congrArg Word.kind same
  have text : first.text = second.text := congrArg Word.text same
  exact ⟨kind, by rw [text], fun _ => text⟩

theorem alike_of_map_word {tokens others : List Token}
    (same : tokens.map word = others.map word) : List.Forall₂ Alike tokens others := by
  rw [← List.forall₂_eq_eq_eq, List.forall₂_map_left_iff, List.forall₂_map_right_iff] at same
  exact same.imp fun _ _ => alike_of_word

end Token

namespace Grammar

variable {first : Bool} {tokens others : List Token} {kind : OperandKind}

theorem IsOperandKind.of_alike (operand : IsOperandKind first tokens kind)
    (alike : List.Forall₂ Token.Alike tokens others) :
    ∃ same, IsOperandKind first others same ∧ same.bare = kind.bare := by
  have ends : Line.OperandEnds [] := nofun
  have read := Line.readOperand_of_isOperandKind 0 operand ends
  rw [List.append_nil] at read
  have agree : Line.AgreeOn Operand.bare (Line.readOperand 0 first tokens)
      (Line.readOperand 0 first others) := Line.agree_readOperand alike
  obtain ⟨⟨value, stop, rest⟩, found, same, nothing⟩ := agree.exists_ok read
  cases nothing
  obtain ⟨taken, split, spoken, -⟩ := Line.took_of_readOperand found ends
  rw [List.append_nil] at split
  subst split
  exact ⟨value.kind, spoken, (congrArg Operand.kind same).symm⟩

theorem IsOperandKind.behind_comma (operand : IsOperandKind true tokens kind)
    (other : ∀ register, ¬ IsRegister tokens register) : IsOperandKind false tokens kind := by
  cases operand with
  | immediate mark inner => exact .immediate mark inner
  | indirect opens inner closes => exact .indirect opens inner closes
  | string kind => exact .string kind
  | register later _ => cases later
  | value inner => exact .value inner fun ⟨_, name, named⟩ => other name named

/-- The words of an operand, wherever they stand. -/
def Spells (first : Bool) (words : List Word) (kind : OperandKind) : Prop :=
  ∃ tokens spoken, tokens.map Token.word = words ∧ IsOperandKind first tokens spoken ∧
    spoken.bare = kind

theorem Spells.isOperandKind {words : List Word} (spells : Spells first words kind)
    (same : tokens.map Token.word = words) :
    ∃ spoken, IsOperandKind first tokens spoken ∧ spoken.bare = kind := by
  obtain ⟨others, spoken, rfl, operand, rfl⟩ := spells
  exact operand.of_alike (Token.alike_of_map_word same.symm)

theorem isOperands_of_spells {part : List Word} {rest : List (List Word)} {kinds : List OperandKind}
    (head : Spells first part kind) (tail : List.Forall₂ (Spells false) rest kinds)
    (same : tokens.map Token.word = List.intercalate [Word.comma] (part :: rest)) :
    ∃ operands, IsOperands first tokens operands ∧
      operands.map (·.kind.bare) = kind :: kinds := by
  induction tail generalizing first part kind tokens with
  | nil =>
      rw [List.intercalate_singleton] at same
      obtain ⟨spoken, operand, rfl⟩ := head.isOperandKind same
      exact ⟨_, .last operand, rfl⟩
  | cons next later ih =>
      rw [List.intercalate_cons_cons, List.append_assoc, List.singleton_append] at same
      obtain ⟨front, back, rfl, mine, theirs⟩ := List.map_eq_append_iff.mp same
      obtain ⟨comma, more, rfl, mark, others⟩ := List.map_eq_cons_iff.mp theirs
      obtain ⟨spoken, operand, rfl⟩ := head.isOperandKind mine
      obtain ⟨operands, listed, kinds⟩ := ih next others
      have parts : comma.kind = .comma := congrArg Word.kind mark
      exact ⟨_, .comma operand parts listed, congrArg (spoken.bare :: ·) kinds⟩

end Grammar

end EightBit
