import EightBit.Proofs.Text.Escaped
import EightBit.Proofs.Text.Positional
import EightBit.Proofs.Token.Words

/-!
Words with blanks between them. Blanks part words and mean nothing else; they are only needed where
a name or a number would run into letters or digits behind it.
-/
namespace EightBit

/-- The kinds of words that go on as long as letters or digits follow. -/
def TokenKind.runsOn : TokenKind → Bool
  | identifier | directive | hexadecimal | decimal | binary => true
  | _ => false

def TokenKind.sayable : TokenKind → Bool
  | unknown | string false | character false | comment | blank => false
  | _ => true

theorem TokenKind.significant_of_sayable {kind : TokenKind} (sayable : kind.sayable = true) :
    kind.significant = true := by
  cases kind with
  | comment | blank => cases sayable
  | _ => rfl

namespace Word

def Apart (word : Word) (rest : List Char) : Prop :=
  word.kind.runsOn = true → ∀ c ∈ rest.head?, Token.continuesName c = false

instance (word : Word) (rest : List Char) : Decidable (word.Apart rest) :=
  decidable_of_iff (word.kind.runsOn = true → rest.head?.all (!Token.continuesName ·) = true)
    (by simp [Apart, Option.all_eq_true])

theorem apart_nil (word : Word) : word.Apart [] := by
  intro _ c first
  cases first

theorem apart_of_not_runsOn {word : Word} (whole : word.kind.runsOn = false) (rest : List Char) :
    word.Apart rest := by
  intro runs
  cases whole.symm.trans runs

/-- A word that is read as it is, where it stands apart from what is behind it. -/
structure Plain (word : Word) : Prop where
  sayable : word.kind.sayable = true
  ends : ∀ rest, word.Apart rest → word.EndsBefore rest

/-- A text is these words, with blanks in front of them, between them and behind them. -/
inductive Spaced : List Word → List Char → Prop
  | nothing {blank : List Char} (blanks : ∀ c ∈ blank, Token.isBlank c = true) : Spaced [] blank
  | word {first : Word} {more : List Word} {blank rest : List Char}
      (blanks : ∀ c ∈ blank, Token.isBlank c = true) (apart : first.Apart rest)
      (spaced : Spaced more rest) : Spaced (first :: more) (blank ++ (first.text ++ rest))

theorem spaced_nil : Spaced [] [] := .nothing (List.forall_mem_nil _)

section Blanks

variable {first : Word} {more : List Word} {rest : List Char}

theorem Spaced.tight (apart : first.Apart rest) (spaced : Spaced more rest) :
    Spaced (first :: more) (first.text ++ rest) := by
  have none : ∀ c ∈ ([] : List Char), Token.isBlank c = true := List.forall_mem_nil _
  have joined := Spaced.word none apart spaced
  rwa [List.nil_append] at joined

theorem Spaced.blank {words : List Word} {text : List Char} (spaced : Spaced words text) :
    Spaced words (' ' :: text) := by
  cases spaced with
  | nothing blanks => exact .nothing (List.forall_mem_cons.mpr ⟨rfl, blanks⟩)
  | word blanks apart later =>
      rw [← List.cons_append]
      exact .word (List.forall_mem_cons.mpr ⟨rfl, blanks⟩) apart later

theorem Spaced.wide (apart : first.Apart rest) (spaced : Spaced more rest) :
    Spaced (first :: more) (' ' :: (first.text ++ rest)) := (spaced.tight apart).blank

end Blanks

def significant (text : List Char) : List Word := (Token.significantTokens text).map Token.word

theorem map_word_tokensFrom (start : Nat) (text : List Char) :
    (Token.tokensFrom start text).map Token.word = (Token.tokens text).map Token.word := by
  rw [Token.tokens]
  generalize 0 = other
  induction length : text.length using Nat.strongRecOn generalizing text start other with
  | ind n ih =>
      cases text with
      | nil => rw [Token.tokensFrom, Token.tokensFrom]
      | cons c cs =>
          rw [Token.tokensFrom, Token.tokensFrom, List.map_cons, List.map_cons]
          have shorter : (cs.drop (Token.scan c cs).2).length < n := by
            rw [← length, List.length_drop, List.length_cons]
            omega
          exact congrArg _ (ih _ shorter _ _ _ rfl)

theorem significant_eq (start : Nat) (text : List Char) :
    significant text =
      ((Token.tokensFrom start text).map Token.word).filter (·.kind.significant) := by
  rw [map_word_tokensFrom, List.filter_map]
  rfl

theorem drop_run (p : Char → Bool) (cs : List Char) :
    cs.drop (Token.run p cs) = cs.dropWhile p := by
  have whole : cs.takeWhile p ++ cs.dropWhile p = cs := List.takeWhile_append_dropWhile
  calc cs.drop (Token.run p cs)
    _ = (cs.takeWhile p ++ cs.dropWhile p).drop (cs.takeWhile p).length := by
        rw [whole, Token.run]
    _ = cs.dropWhile p := List.drop_left

theorem significant_cons {c : Char} {cs : List Char} {kind : TokenKind} {n : Nat}
    (scanned : Token.scan c cs = (kind, n)) :
    significant (c :: cs) =
      [⟨kind, c :: cs.take n⟩].filter (·.kind.significant) ++ significant (cs.drop n) := by
  rw [significant_eq 0, Token.tokensFrom]
  simp only [scanned, List.map_cons]
  rw [← List.singleton_append, List.filter_append, ← significant_eq]
  rfl

theorem significant_dropWhile (text : List Char) :
    significant (text.dropWhile Token.isBlank) = significant text := by
  cases text with
  | nil => rfl
  | cons c cs =>
      by_cases blank : Token.isBlank c = true
      · have scanned : Token.scan c cs = (.blank, Token.run Token.isBlank cs) := by
          have comment : c ≠ ';' := by
            rintro rfl
            cases blank
          simp only [Token.scan, comment, blank, ↓reduceIte]
        rw [List.dropWhile_cons_of_pos blank, significant_cons scanned, drop_run]
        rfl
      · rw [List.dropWhile_cons_of_neg blank]

theorem Spaced.significant_eq {words : List Word} {text : List Char} (spaced : Spaced words text)
    (plain : ∀ word ∈ words, word.Plain) : significant text = words := by
  induction spaced with
  | @nothing blank blanks =>
      have skipped : blank.dropWhile Token.isBlank = [] :=
        calc blank.dropWhile Token.isBlank
          _ = (blank ++ []).dropWhile Token.isBlank := by rw [List.append_nil]
          _ = [] := List.dropWhile_append_of_pos blanks
      rw [← significant_dropWhile, skipped, significant, Token.significantTokens, Token.tokens,
        Token.tokensFrom]
      rfl
  | @word first more blank rest blanks apart _ ih =>
      rw [List.forall_mem_cons] at plain
      obtain ⟨c, cs, text, scanned⟩ := plain.1.ends rest apart
      have same : ⟨first.kind, c :: cs⟩ = first := by rw [← text]
      have kept := TokenKind.significant_of_sayable plain.1.sayable
      rw [← significant_dropWhile, List.dropWhile_append_of_pos blanks, significant_dropWhile,
        text, List.cons_append, significant_cons scanned, List.take_left, List.drop_left, same,
        ih plain.2, List.filter_singleton, kept]
      rfl

def spread (words : List Word) : List Char := words.flatMap fun word => ' ' :: word.text

theorem spaced_spread (words : List Word) : Spaced words (spread words) := by
  induction words with
  | nil => exact spaced_nil
  | cons first more ih =>
      have apart : first.Apart (spread more) := by
        intro _ c next
        cases more with
        | nil => cases next
        | cons second rest =>
            cases next
            rfl
      exact ih.wide apart

end Word

namespace Token

variable {c : Char} {value : Nat}

theorem isDigit_of_digitIn (digit : Text.digitIn 10 c = some value) : c.isDigit = true := by
  obtain ⟨known, small⟩ := Option.filter_eq_some_iff.mp digit
  have le (first second : Char) : first ≤ second ↔ first.toNat ≤ second.toNat := Iff.rfl
  simp only [Text.digitValue, le, Char.reduceToNat, decide_eq_true_eq] at known small
  rw [Char.isDigit_iff_toNat]
  grind

theorem isBinaryDigit_of_digitIn (digit : Text.digitIn 2 c = some value) :
    isBinaryDigit c = true := by
  obtain ⟨known, small⟩ := Option.filter_eq_some_iff.mp digit
  have le (first second : Char) : first ≤ second ↔ first.toNat ≤ second.toNat := Iff.rfl
  have eq (other : Char) : c = other ↔ c.toNat = other.toNat := Char.toNat_inj.symm
  simp only [Text.digitValue, le, Char.reduceToNat, decide_eq_true_eq] at known small
  simp only [isBinaryDigit, eq, Char.reduceToNat, Bool.or_eq_true, decide_eq_true_eq]
  grind

theorem isHexDigit_of_digitIn (digit : Text.digitIn 16 c = some value) :
    isHexDigit c = true := by
  obtain ⟨known, small⟩ := Option.filter_eq_some_iff.mp digit
  have le (first second : Char) : first ≤ second ↔ first.toNat ≤ second.toNat := Iff.rfl
  have decimal : c.isDigit = true ↔ 48 ≤ c.toNat ∧ c.toNat ≤ 57 := Char.isDigit_iff_toNat
  simp only [Text.digitValue, le, Char.reduceToNat] at known
  simp only [isHexDigit, Bool.or_eq_true, Bool.and_eq_true, decide_eq_true_eq, decimal, le,
    Char.reduceToNat]
  grind

theorem continuesName_of_isDigit (digit : c.isDigit = true) : continuesName c = true := by
  simp [continuesName, Char.isAlphanum, digit]

theorem continuesName_of_isAlpha (letter : c.isAlpha = true) : continuesName c = true := by
  simp [continuesName, Char.isAlphanum, letter]

theorem continuesName_of_isHexDigit (digit : isHexDigit c = true) : continuesName c = true := by
  rcases (Bool.or_eq_true _ _).mp digit with other | capital
  · rcases (Bool.or_eq_true _ _).mp other with decimal | small
    · exact continuesName_of_isDigit decimal
    · obtain ⟨low, high⟩ := (Bool.and_eq_true _ _).mp small
      have last : c ≤ 'z' := Char.le_trans (of_decide_eq_true high) (by decide)
      have lower : c.isLower = true := (Bool.and_eq_true _ _).mpr ⟨low, decide_eq_true last⟩
      exact continuesName_of_isAlpha ((Bool.or_eq_true _ _).mpr (Or.inr lower))
  · obtain ⟨low, high⟩ := (Bool.and_eq_true _ _).mp capital
    have last : c ≤ 'Z' := Char.le_trans (of_decide_eq_true high) (by decide)
    have upper : c.isUpper = true := decide_eq_true ⟨of_decide_eq_true low, last⟩
    exact continuesName_of_isAlpha ((Bool.or_eq_true _ _).mpr (Or.inl upper))

theorem continuesName_of_isBinaryDigit (digit : isBinaryDigit c = true) :
    continuesName c = true := by
  rcases (Bool.or_eq_true _ _).mp digit with zero | one
  · rw [of_decide_eq_true zero]
    rfl
  · rw [of_decide_eq_true one]
    rfl

end Token

namespace Word

variable {kind : TokenKind} {c : Char} {cs : List Char}

theorem plain_of_run {p : Char → Bool} (sayable : kind.sayable = true)
    (runs : kind.runsOn = true) (scanned : ∀ rest, Token.scan c rest = (kind, Token.run p rest))
    (within : ∀ d, p d = true → Token.continuesName d = true) (all : ∀ d ∈ cs, p d = true) :
    Plain ⟨kind, c :: cs⟩ := by
  refine ⟨sayable, fun rest apart => ⟨c, cs, rfl, ?_⟩⟩
  have ends : ∀ d ∈ rest.head?, p d = false := by
    intro d first
    apply Bool.eq_false_iff.mpr
    intro more
    cases (within d more).symm.trans (apart runs d first)
  rw [scanned, Token.run_append all ends]

theorem plain_name (starts : Token.startsName c = true)
    (continues : ∀ d ∈ cs, Token.continuesName d = true) : Plain ⟨.identifier, c :: cs⟩ :=
  plain_of_run rfl rfl (Token.scan_of_startsName starts) (fun _ => id) continues

theorem plain_directive (continues : ∀ d ∈ cs, Token.continuesName d = true) :
    Plain ⟨.directive, '.' :: cs⟩ :=
  plain_of_run rfl rfl (fun _ => rfl) (fun _ => id) continues

theorem plain_mark (sayable : kind.sayable = true)
    (scanned : ∀ rest, Token.scan c rest = (kind, 0)) : Plain ⟨kind, [c]⟩ :=
  ⟨sayable, fun rest _ => ⟨c, [], rfl, scanned rest⟩⟩

theorem plain_string {written : List Char} (escapes : Text.Escapes cs written) :
    Plain ⟨.string true, '"' :: (written ++ ['"'])⟩ := by
  refine ⟨rfl, fun rest _ => ⟨'"', written ++ ['"'], rfl, ?_⟩⟩
  have scanned (more : List Char) : Token.scan '"' more =
      (.string (Token.quoted '"' more).1, (Token.quoted '"' more).2) := rfl
  rw [List.append_assoc, List.singleton_append, scanned, escapes.quoted_eq, List.length_append,
    List.length_singleton]

end Word

end EightBit
