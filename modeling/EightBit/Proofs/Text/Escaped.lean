import EightBit.Token

namespace EightBit.Text

/-- Written between double quotes, a character stands for itself, unless it is a backslash, a
double quote or a line feed, or it is told by an escape sequence. -/
inductive Escapes : List Char → List Char → Prop
  | nothing : Escapes [] []
  | plain {c : Char} {cs written : List Char} (backslash : c ≠ '\\') (quote : c ≠ '"')
      (feed : c ≠ '\n') (rest : Escapes cs written) : Escapes (c :: cs) (c :: written)
  | escape {c letter : Char} {cs written : List Char} (known : escaped? letter = some c)
      (rest : Escapes cs written) : Escapes (c :: cs) ('\\' :: letter :: written)

def escape : List Char → List Char
  | [] => []
  | '\\' :: cs => '\\' :: '\\' :: escape cs
  | '"' :: cs => '\\' :: '"' :: escape cs
  | '\n' :: cs => '\\' :: 'n' :: escape cs
  | c :: cs => c :: escape cs

theorem escapes_escape (cs : List Char) : Escapes cs (escape cs) := by
  fun_induction escape cs with
  | case1 => exact .nothing
  | case2 cs ih => exact .escape rfl ih
  | case3 cs ih => exact .escape rfl ih
  | case4 cs ih => exact .escape rfl ih
  | case5 c cs backslash quote feed ih => exact .plain backslash quote feed ih

variable {cs written : List Char}

theorem escapes_self (plain : ∀ c ∈ cs, c ≠ '\\' ∧ c ≠ '"' ∧ c ≠ '\n') : Escapes cs cs := by
  induction cs with
  | nil => exact .nothing
  | cons c cs ih =>
      obtain ⟨⟨backslash, quote, feed⟩, later⟩ := List.forall_mem_cons.mp plain
      exact .plain backslash quote feed (ih later)

theorem Escapes.unescape_eq (escapes : Escapes cs written) : unescape written = cs := by
  induction escapes with
  | nothing => rfl
  | plain backslash quote feed rest ih =>
      rw [unescape, ih]
      · exact fun same _ => backslash same
      · exact fun _ _ same _ => backslash same
  | escape known rest ih => rw [unescape, known, ih]

theorem Escapes.quoted_eq (escapes : Escapes cs written) (rest : List Char) :
    Token.quoted '"' (written ++ '"' :: rest) = (true, written.length + 1) := by
  induction escapes with
  | nothing => simp [Token.quoted]
  | plain backslash quote feed _ ih =>
      rw [List.cons_append, Token.quoted, if_neg quote, if_neg feed, ih]
      · rfl
      · exact fun same _ => backslash same
      · exact fun _ _ same _ => backslash same
  | escape known _ ih =>
      rw [List.cons_append, List.cons_append, Token.quoted, ih]
      rfl

theorem Escapes.newline_not_mem (escapes : Escapes cs written) : '\n' ∉ written := by
  induction escapes with
  | nothing => nofun
  | plain backslash quote feed rest ih =>
      exact List.not_mem_cons_of_ne_of_not_mem feed.symm ih
  | escape known rest ih =>
      rintro (_ | ⟨_, _ | ⟨_, later⟩⟩)
      · cases known
      · exact ih later

end EightBit.Text
