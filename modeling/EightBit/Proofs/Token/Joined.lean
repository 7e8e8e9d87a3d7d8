import EightBit.Proofs.Line.Words
import EightBit.Proofs.Token.Spacing

namespace EightBit

def TokenKind.endsAtComma : TokenKind → Bool
  | comment | string false | character false => false
  | _ => true

namespace Token

/-- How the scanner goes on behind a first character. -/
inductive ScansOn (c : Char) : Prop
  | comment (scanned : ∀ cs, scan c cs = (.comment, run (· != '\n') cs))
  | run (kind : TokenKind) (p : Char → Bool) (stops : p ',' = false)
      (scanned : ∀ cs, scan c cs = (kind, run p cs))
  | literal (quote : Char) (kind : Bool → TokenKind) (ends : (kind false).endsAtComma = false)
      (scanned : ∀ cs, scan c cs = (kind (quoted quote cs).1, (quoted quote cs).2))
  | mark (kind : TokenKind) (scanned : ∀ cs, scan c cs = (kind, 0))

theorem scansOn (c : Char) : ScansOn c := by
  by_cases comment : c = ';'
  · exact .comment fun cs => by simp only [scan, comment, ↓reduceIte]
  by_cases blank : isBlank c = true
  · exact .run .blank isBlank rfl fun cs => by simp only [scan, comment, blank, ↓reduceIte]
  by_cases dollar : c = '$'
  · exact .run .hexadecimal isHexDigit (by decide) fun cs => by
      rw [dollar]
      rfl
  by_cases percent : c = '%'
  · exact .run .binary isBinaryDigit rfl fun cs => by
      rw [percent]
      rfl
  by_cases digit : c.isDigit = true
  · exact .run .decimal Char.isDigit (by decide) (scan_of_isDigit digit)
  by_cases name : startsName c = true
  · exact .run .identifier continuesName (by decide) (scan_of_startsName name)
  by_cases dot : c = '.'
  · exact .run .directive continuesName (by decide) fun cs => by rw [dot]; rfl
  by_cases double : c = '"'
  · exact .literal '"' .string rfl fun cs => by rw [double]; rfl
  by_cases single : c = '\''
  · exact .literal '\'' .character rfl fun cs => by rw [single]; rfl
  refine .mark (scan c []).1 fun cs => ?_
  simp only [scan, comment, blank, dollar, percent, digit, name, dot, double, single,
    Bool.false_eq_true, ↓reduceIte]
  split <;> rfl

theorem run_le (p : Char → Bool) (cs : List Char) : run p cs ≤ cs.length :=
  (List.takeWhile_prefix p).length_le

theorem run_append_of_stop {p : Char → Bool} {stop : Char} (stops : p stop = false)
    (cs rest : List Char) : run p (cs ++ stop :: rest) = run p cs := by
  induction cs with
  | nil => simp [run, stops]
  | cons c cs ih =>
      simp only [run, List.cons_append, List.takeWhile_cons] at ih ⊢
      split
      · rw [List.length_cons, ih, List.length_cons]
      · rfl

theorem quoted_le (quote : Char) (cs : List Char) : (quoted quote cs).2 ≤ cs.length := by
  fun_induction quoted quote cs <;> simp_all

theorem quoted_cons {c : Char} (solid : c ≠ '\\') (quote : Char) (cs : List Char) :
    quoted quote (c :: cs) =
      if c = quote then (true, 1)
      else if c = '\n' then (false, 1)
      else ((quoted quote cs).1, (quoted quote cs).2 + 1) := by
  rw [quoted]
  · exact fun same _ => solid same
  · exact fun _ _ same _ => solid same

theorem quoted_append {quote : Char} {cs : List Char} (closed : (quoted quote cs).1 = true)
    (rest : List Char) : quoted quote (cs ++ rest) = quoted quote cs := by
  induction length : cs.length using Nat.strongRecOn generalizing cs with
  | ind n ih =>
      subst length
      match cs with
      | [] => cases closed
      | c :: cs =>
          by_cases backslash : c = '\\'
          · subst backslash
            match cs with
            | [] => cases closed
            | d :: ds =>
                have inner : (quoted quote ds).1 = true := closed
                have later := ih ds.length (by grind) inner rfl
                rw [List.cons_append, List.cons_append, quoted, quoted, later]
          · rw [List.cons_append, quoted_cons backslash, quoted_cons backslash]
            rw [quoted_cons backslash] at closed
            split
            · rfl
            · split
              · rfl
              · rename_i other feed
                rw [if_neg other, if_neg feed] at closed
                rw [ih cs.length (by grind) closed rfl]

theorem scan_le (c : Char) (cs : List Char) : (scan c cs).2 ≤ cs.length := by
  cases scansOn c with
  | comment scanned | run kind p stops scanned =>
      rw [scanned]
      exact run_le _ _
  | literal quote kind ends scanned =>
      rw [scanned]
      exact quoted_le quote cs
  | mark kind scanned =>
      rw [scanned]
      exact Nat.zero_le _

theorem scan_append_comma {c : Char} {cs : List Char}
    (ends : (scan c cs).1.endsAtComma = true) (rest : List Char) :
    scan c (cs ++ ',' :: rest) = scan c cs := by
  cases scansOn c with
  | comment scanned =>
      rw [scanned] at ends
      cases ends
  | run kind p stops scanned => rw [scanned, scanned, run_append_of_stop stops]
  | literal quote kind open_ scanned =>
      have closed : (quoted quote cs).1 = true := by
        apply Bool.eq_true_of_not_eq_false
        intro unclosed
        rw [scanned, unclosed, open_] at ends
        cases ends
      rw [scanned, scanned, quoted_append closed]
  | mark kind scanned => rw [scanned, scanned]

end Token

namespace Word

def EndsAtComma (text : List Char) : Prop :=
  ∀ token ∈ Token.tokens text, token.kind.endsAtComma = true

theorem endsAtComma_cons {c : Char} {cs : List Char} (ends : EndsAtComma (c :: cs)) :
    (Token.scan c cs).1.endsAtComma = true ∧ EndsAtComma (cs.drop (Token.scan c cs).2) := by
  rw [EndsAtComma, Token.tokens, Token.tokensFrom, List.forall_mem_cons] at ends
  refine ⟨ends.1, ?_⟩
  intro token member
  have word := List.mem_map_of_mem (f := Token.word) member
  rw [← map_word_tokensFrom (0 + Text.byteLength (c :: cs.take (Token.scan c cs).2))] at word
  obtain ⟨other, among, same⟩ := List.mem_map.mp word
  have kind : other.kind = token.kind := congrArg Word.kind same
  rw [← kind]
  exact ends.2 other among

theorem significant_nil : significant [] = [] := by
  rw [significant, Token.significantTokens, Token.tokens, Token.tokensFrom]
  rfl

theorem significant_append_comma {text : List Char} (ends : EndsAtComma text) (rest : List Char) :
    significant (text ++ ',' :: rest) = significant text ++ comma :: significant rest := by
  induction length : text.length using Nat.strongRecOn generalizing text with
  | ind n ih =>
      cases text with
      | nil =>
          have scanned : Token.scan ',' rest = (.comma, 0) := rfl
          rw [List.nil_append, significant_cons scanned, significant_nil]
          rfl
      | cons c cs =>
          obtain ⟨now, later⟩ := endsAtComma_cons ends
          have inside := Token.scan_le c cs
          have joined := Token.scan_append_comma now rest
          cases scanned : Token.scan c cs with | mk kind count => ?_
          rw [scanned] at inside later joined
          have shorter : (cs.drop count).length < n := by
            rw [← length, List.length_drop, List.length_cons]
            omega
          rw [List.cons_append, significant_cons joined, significant_cons scanned,
            List.take_append_of_le_length inside, List.drop_append_of_le_length inside,
            ih _ shorter later rfl, List.append_assoc]

theorem significant_intercalate {texts : List (List Char)}
    (ends : ∀ text ∈ texts, EndsAtComma text) :
    significant (List.intercalate [','] texts) =
      List.intercalate [comma] (texts.map significant) := by
  induction texts with
  | nil => exact significant_nil
  | cons text rest ih =>
      obtain ⟨now, later⟩ := List.forall_mem_cons.mp ends
      cases rest with
      | nil => rw [List.map_singleton, List.intercalate_singleton, List.intercalate_singleton]
      | cons next more =>
          rw [List.map_cons, List.map_cons, List.intercalate_cons_cons,
            List.intercalate_cons_cons, List.append_assoc, List.singleton_append,
            significant_append_comma now, ih later, List.map_cons, List.append_assoc,
            List.singleton_append]

end Word

end EightBit
