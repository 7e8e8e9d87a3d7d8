import EightBit.Token

namespace EightBit.Token

def extent : List Token → Nat
  | [] => 0
  | token :: rest => Text.byteLength token.text + extent rest

def Solid (tokens : List Token) : Prop := ∀ token ∈ tokens, token.text ≠ []

theorem extent_append (front back : List Token) :
    extent (front ++ back) = extent front + extent back := by
  induction front with
  | nil => simp [extent]
  | cons token rest ih => simp [extent, ih, Nat.add_assoc]

theorem extent_le_of_suffix {tokens rest : List Token} (suffix : rest <:+ tokens) :
    extent rest ≤ extent tokens := by
  rcases suffix with ⟨taken, rfl⟩
  rw [extent_append]
  exact Nat.le_add_left _ _

theorem flatMap_text_tokensFrom (start : Nat) (cs : List Char) :
    (tokensFrom start cs).flatMap (·.text) = cs := by
  fun_induction tokensFrom start cs with
  | case1 => rfl
  | case2 start c cs kind n scanned text ih =>
      rw [List.flatMap_cons, ih]
      simp [text, List.take_append_drop]

theorem solid_tokensFrom (start : Nat) (cs : List Char) : Solid (tokensFrom start cs) := by
  fun_induction tokensFrom start cs with
  | case1 => intro token member; cases member
  | case2 start c cs kind n scanned text ih =>
      intro token member
      rcases List.mem_cons.mp member with rfl | later
      · exact List.cons_ne_nil _ _
      · exact ih token later

theorem byteLength_flatMap_text (tokens : List Token) :
    Text.byteLength (tokens.flatMap (·.text)) = extent tokens := by
  induction tokens with
  | nil => rfl
  | cons token rest ih => rw [List.flatMap_cons, Text.byteLength_append, ih, extent]

theorem extent_tokensFrom (start : Nat) (cs : List Char) :
    extent (tokensFrom start cs) = Text.byteLength cs := by
  rw [← byteLength_flatMap_text, flatMap_text_tokensFrom]

theorem extent_filter_le (p : Token → Bool) (tokens : List Token) :
    extent (tokens.filter p) ≤ extent tokens := by
  induction tokens with
  | nil => exact Nat.le_refl _
  | cons token rest ih =>
      rw [List.filter_cons]
      split
      · exact Nat.add_le_add_left ih _
      · exact Nat.le_trans ih (Nat.le_add_left _ _)

theorem extent_significantTokens_le (cs : List Char) :
    extent (significantTokens cs) ≤ Text.byteLength cs := by
  have kept := extent_filter_le (·.kind.significant) (tokens cs)
  rwa [tokens, extent_tokensFrom] at kept

theorem solid_significantTokens (cs : List Char) : Solid (significantTokens cs) := by
  intro token member
  exact solid_tokensFrom 0 cs token (List.mem_filter.mp member).1

theorem Solid.of_suffix {tokens rest : List Token} (solid : Solid tokens)
    (suffix : rest <:+ tokens) : Solid rest := by
  intro token member
  exact solid token (suffix.subset member)

theorem Solid.extent_pos {tokens : List Token} (solid : Solid tokens) (some : tokens ≠ []) :
    0 < extent tokens := by
  cases tokens with
  | nil => contradiction
  | cons token rest =>
      have covers := Text.byteLength_pos (solid token List.mem_cons_self)
      exact Nat.add_pos_left covers _

theorem Solid.extent_lt {tokens rest : List Token} (solid : Solid tokens)
    (suffix : rest <:+ tokens) (shorter : rest.length < tokens.length) :
    extent rest < extent tokens := by
  rcases suffix with ⟨taken, rfl⟩
  have some : taken ≠ [] := by
    rintro rfl
    exact Nat.lt_irrefl _ shorter
  have front : Solid taken := fun token member => solid token (List.mem_append_left _ member)
  rw [extent_append]
  exact Nat.lt_add_of_pos_left (front.extent_pos some)

end EightBit.Token
