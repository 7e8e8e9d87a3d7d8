import Mathlib.Data.List.Chain
import Mathlib.Data.List.TakeWhile
import EightBit.Proofs.Token.Boundary
import EightBit.Proofs.Token.Joined

/-!
The tokens of a text are the text, cut into pieces. Each piece goes as far as it can, so it does not
depend on what is behind it: read on its own, it is the same token again.
-/
namespace EightBit

def TokenKind.absorbs : TokenKind → Char → Bool
  | identifier | directive => Token.continuesName
  | hexadecimal => Token.isHexDigit
  | decimal => Char.isDigit
  | binary => Token.isBinaryDigit
  | blank => Token.isBlank
  | comment => (· != '\n')
  | _ => fun _ => false

def TokenKind.isMark : TokenKind → Bool
  | hash | comma | colon | equals | openParen | closeParen | less | greater | plus | minus
  | unknown => true
  | _ => false

theorem TokenKind.absorbs_of_isMark {kind : TokenKind} (mark : kind.isMark = true) (c : Char) :
    kind.absorbs c = false := by
  cases kind with
  | hash | comma | colon | equals | openParen | closeParen | less | greater | plus | minus
  | unknown => rfl
  | _ => cases mark

namespace Token

inductive Scans (c : Char) (cs : List Char) : TokenKind × Nat → Prop
  | comment (first : c = ';') : Scans c cs (.comment, run (· != '\n') cs)
  | blank (first : isBlank c = true) : Scans c cs (.blank, run isBlank cs)
  | hexadecimal (first : c = '$') : Scans c cs (.hexadecimal, run isHexDigit cs)
  | binary (first : c = '%') : Scans c cs (.binary, run isBinaryDigit cs)
  | decimal (first : c.isDigit = true) : Scans c cs (.decimal, run Char.isDigit cs)
  | identifier (first : startsName c = true) : Scans c cs (.identifier, run continuesName cs)
  | directive (first : c = '.') : Scans c cs (.directive, run continuesName cs)
  | string (first : c = '"') : Scans c cs (.string (quoted c cs).1, (quoted c cs).2)
  | character (first : c = '\'') : Scans c cs (.character (quoted c cs).1, (quoted c cs).2)
  | mark (kind : TokenKind) (alone : kind.isMark = true) : Scans c cs (kind, 0)

/-- Tokens that each cover a byte at least: the first starts at one place, each of the others where
the one before it stops, and the last stops at another place. -/
inductive Tiles : Nat → List Token → Nat → Prop
  | nothing {place : Nat} : Tiles place [] place
  | token {first : Token} {rest : List Token} {stop : Nat} (solid : first.start < first.stop)
      (later : Tiles first.stop rest stop) : Tiles first.start (first :: rest) stop

/-- The second token is no part of the first: blanks are not cut in two, and it starts with a
character that the first could not go on with. -/
structure Parted (first second : Token) : Prop where
  blank : ¬ (first.kind = .blank ∧ second.kind = .blank)
  whole : ∀ c ∈ second.text.head?, first.kind.absorbs c = false

theorem tiles_tokensFrom (start : Nat) (cs : List Char) :
    Tiles start (tokensFrom start cs) (start + Text.byteLength cs) := by
  fun_induction tokensFrom start cs with
  | case1 start => exact .nothing
  | case2 start c cs kind n scanned text ih =>
      have whole : Text.byteLength (c :: cs) =
          Text.byteLength text + Text.byteLength (cs.drop n) := by
        rw [← Text.byteLength_append, List.cons_append, List.take_append_drop]
      have solid : (⟨kind, text, start⟩ : Token).start < (⟨kind, text, start⟩ : Token).stop :=
        Nat.lt_add_of_pos_right (Text.byteLength_pos (List.cons_ne_nil c (cs.take n)))
      rw [whole, ← Nat.add_assoc]
      exact .token solid ih

theorem not_mem_head?_drop_run (p : Char → Bool) (cs : List Char) :
    ∀ d ∈ (cs.drop (run p cs)).head?, p d = false := by
  intro d next
  rw [Word.drop_run] at next
  have ends := List.head?_dropWhile_not p cs
  rw [Option.mem_def.mp next] at ends
  exact ends

theorem scans (c : Char) (cs : List Char) : Scans c cs (scan c cs) := by
  unfold scan
  refine iteInduction .comment fun _ => ?_
  refine iteInduction .blank fun _ => ?_
  refine iteInduction .hexadecimal fun _ => ?_
  refine iteInduction .binary fun _ => ?_
  refine iteInduction .decimal fun _ => ?_
  refine iteInduction .identifier fun _ => ?_
  refine iteInduction .directive fun _ => ?_
  refine iteInduction ?_ fun _ => iteInduction ?_ fun _ => ?_
  · rintro rfl
    exact .string rfl
  · rintro rfl
    exact .character rfl
  · split <;> exact .mark _ rfl

theorem not_absorbs_behind (c : Char) (cs : List Char) :
    ∀ d ∈ (cs.drop (scan c cs).2).head?, (scan c cs).1.absorbs d = false := by
  have scanned := scans c cs
  generalize scan c cs = taken at scanned ⊢
  cases scanned with
  | comment | blank | hexadecimal | binary | decimal | identifier | directive =>
      exact not_mem_head?_drop_run _ cs
  | string | character => exact fun _ _ => rfl
  | mark kind alone => exact fun d _ => TokenKind.absorbs_of_isMark alone d

theorem isBlank_of_scan {c : Char} {cs : List Char} (blank : (scan c cs).1 = .blank) :
    isBlank c = true := by
  have scanned := scans c cs
  generalize scan c cs = taken at scanned blank
  cases scanned with
  | blank first => exact first
  | mark kind alone =>
      subst blank
      cases alone
  | _ => cases blank

theorem run_take (p : Char → Bool) (cs : List Char) : run p (cs.take (run p cs)) = run p cs := by
  have taken : cs.take (run p cs) = cs.takeWhile p :=
    (List.prefix_iff_eq_take.mp (List.takeWhile_prefix p)).symm
  rw [taken, run, List.takeWhile_idem, run]

theorem quoted_take (quote : Char) (cs : List Char) :
    quoted quote (cs.take (quoted quote cs).2) = quoted quote cs := by
  induction length : cs.length using Nat.strongRecOn generalizing cs with
  | ind n ih =>
      subst length
      match cs with
      | [] => rfl
      | c :: cs =>
          by_cases backslash : c = '\\'
          · subst backslash
            match cs with
            | [] => rfl
            | d :: ds =>
                have later := ih ds.length (by grind) ds rfl
                rw [quoted, List.take_succ_cons, List.take_succ_cons, quoted, later]
          · rw [quoted_cons backslash]
            split
            · rename_i closes
              rw [List.take_succ_cons, quoted_cons backslash, if_pos closes]
            · rename_i other
              split
              · rename_i feed
                rw [List.take_succ_cons, quoted_cons backslash, if_neg other, if_pos feed]
              · rename_i plain
                rw [List.take_succ_cons, quoted_cons backslash, if_neg other, if_neg plain,
                  ih cs.length (by grind) cs rfl]

theorem scan_take (c : Char) (cs : List Char) :
    scan c (cs.take (scan c cs).2) = scan c cs := by
  cases scansOn c with
  | comment scanned | run kind p stops scanned =>
      rw [scanned, scanned, run_take]
  | literal quote kind ends scanned =>
      rw [scanned, scanned, quoted_take]
  | mark kind scanned => rw [scanned, scanned]

theorem tokens_text {start : Nat} {cs : List Char} {token : Token}
    (member : token ∈ tokensFrom start cs) :
    tokens token.text = [⟨token.kind, token.text, 0⟩] := by
  fun_induction tokensFrom start cs with
  | case1 => cases member
  | case2 start c cs kind n scanned text ih =>
      rcases List.mem_cons.mp member with rfl | later
      · have alone : scan c (cs.take n) = (kind, n) := by
          have same := scan_take c cs
          rwa [scanned] at same
        have nothing : (cs.take n).drop n = [] :=
          List.drop_eq_nil_of_le (List.length_take_le n cs)
        rw [tokens, tokensFrom, alone]
        dsimp only
        rw [List.take_take, Nat.min_self, nothing, tokensFrom]
      · exact ih later

theorem exists_of_mem_head?_tokensFrom {start : Nat} {cs : List Char} {first : Token}
    (next : first ∈ (tokensFrom start cs).head?) :
    ∃ d ds, cs = d :: ds ∧ first = ⟨(scan d ds).1, d :: ds.take (scan d ds).2, start⟩ := by
  cases cs with
  | nil =>
      rw [tokensFrom] at next
      cases next
  | cons d ds =>
      rw [tokensFrom] at next
      cases next
      exact ⟨d, ds, rfl, rfl⟩

theorem parted_tokensFrom (start : Nat) (cs : List Char) :
    (tokensFrom start cs).IsChain Parted := by
  fun_induction tokensFrom start cs with
  | case1 => exact .nil
  | case2 start c cs kind n scanned text ih =>
      refine List.isChain_cons.mpr ⟨?_, ih⟩
      intro second next
      obtain ⟨d, ds, behind, rfl⟩ := exists_of_mem_head?_tokensFrom next
      have apart : kind.absorbs d = false := by
        have stops := not_absorbs_behind c cs d
        rw [scanned, behind] at stops
        exact stops rfl
      refine ⟨?_, ?_⟩
      · rintro ⟨rfl, blanks⟩
        exact Bool.false_ne_true (apart.symm.trans (isBlank_of_scan blanks))
      · rintro _ ⟨⟩
        exact apart

/-- The tokens of a text part it: they follow each other from its first byte to its last, each has a
byte at least, and each starts and stops between characters. No token could go on with the
character that is behind it, and each one, read on its own, is the same token again. -/
theorem tokens_part_text (text : List Char) :
    Tiles 0 (tokens text) (Text.byteLength text) ∧
    (tokens text).IsChain Parted ∧
    ∀ token ∈ tokens text, token.StandsIn text ∧ token.span.EndsAt (Text.Boundary text) ∧
      tokens token.text = [⟨token.kind, token.text, 0⟩] := by
  have tiles := tiles_tokensFrom 0 text
  rw [Nat.zero_add] at tiles
  refine ⟨tiles, parted_tokensFrom 0 text, fun token member => ?_⟩
  have stands := standsIn_of_mem_tokens member
  exact ⟨stands, stands.endsAt, tokens_text member⟩

example : (tokens ['a', '\x00', '\'', 'é']).map (fun token => (token.kind, token.span)) =
    [(.identifier, ⟨0, 1⟩), (.unknown, ⟨1, 1⟩), (.character false, ⟨2, 3⟩)] := by decide +kernel

end Token

end EightBit
