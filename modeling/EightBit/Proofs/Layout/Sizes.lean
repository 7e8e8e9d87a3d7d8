import EightBit.Proofs.Layout.Extent

namespace EightBit

/-- A statement whose size is the number of its bytes, and whose bytes all have addresses. -/
structure Placed.Fits (placed : Placed) : Prop where
  complete : placed.content.Complete
  size_eq : placed.size = placed.content.extent
  inside : placed.address + placed.size ≤ 0x10000

namespace Layout

theorem toNat_addressLimit : addressLimit.toNat = 0x10000 := rfl

theorem toInt_origin {origin : Int64} (inside : 0 ≤ origin ∧ origin < 0x10000) :
    (origin.toUInt64.toUInt32.toNat : Int) = origin.toInt ∧ origin.toInt < 0x10000 := by
  rcases inside with ⟨low, high⟩
  have same : (origin.toUInt64.toNat : Int) = origin.toInt := by
    rw [Int64.toNat_toUInt64_of_le low]
    exact Int.toNat_of_nonneg (Int64.le_iff_toInt_le.mp low)
  have below : origin.toInt < 0x10000 := Int64.lt_iff_toInt_lt.mp high
  rw [UInt64.toNat_toUInt32]
  omega

theorem Binds.cursor_eq {here : SourceLine} {label : Option Ident} {before after : State}
    (bound : Binds here label before after) : after.cursor = before.cursor := by
  cases bound <;> rfl

theorem toNat_cursor_add {cursor : UInt32} {content : Content} (low : cursor.toNat ≤ 0x10000)
    (small : content.extent < 0x80000003) :
    (cursor + content.size).toNat = cursor.toNat + content.extent := by
  rw [UInt32.toNat_add, content.toNat_size]
  omega

variable {here : SourceLine} {lines : List SourceLine} {before after : State} {placed : List Placed}

theorem Advance.cursor_le (advance : Advance here before after placed)
    (low : before.cursor.toNat ≤ 0x10000) : after.cursor.toNat ≤ 0x10000 := by
  cases advance with
  | bare read bound => rwa [bound.cursor_eq]
  | constant read known added => exact low
  | origin read named known inside bound =>
      rw [bound.cursor_eq]
      have origin := toInt_origin inside
      dsimp only
      omega
  | statement read bound decided fits => exact UInt32.le_iff_toNat_le.mp fits

theorem Advances.cursor_le (advances : Advances lines before after placed)
    (low : before.cursor.toNat ≤ 0x10000) : after.cursor.toNat ≤ 0x10000 := by
  induction advances with
  | done => exact low
  | line now later ih => exact ih (now.cursor_le low)

theorem Decides.extent_lt {state : State} {statement : Statement} {span : Span} {content : Content}
    {label : Option Ident} (decided : Decides state statement span content)
    (read : Line.parse here.text = .ok ⟨label, some statement⟩)
    (short : Text.byteLength here.text < 0x80000000) : content.extent < 0x80000003 := by
  have written := decided.extent_le
  have within := Line.parse_extent read rfl
  omega

theorem Advance.extent_lt (advance : Advance here before after placed)
    (short : Text.byteLength here.text < 0x80000000) :
    ∀ statement ∈ placed, statement.content.extent < 0x80000003 := by
  cases advance with
  | bare | constant | origin =>
      intro statement member
      cases member
  | statement read bound decided fits =>
      intro statement member
      rw [List.mem_singleton] at member
      subst member
      exact decided.extent_lt read short

theorem Advances.extent_lt (advances : Advances lines before after placed)
    (short : ∀ here ∈ lines, Text.byteLength here.text < 0x80000000) :
    ∀ statement ∈ placed, statement.content.extent < 0x80000003 := by
  induction advances with
  | done =>
      intro statement member
      cases member
  | line now later ih =>
      intro statement member
      rcases List.mem_append.mp member with first | rest
      · exact now.extent_lt (short _ List.mem_cons_self) statement first
      · exact ih (fun here member => short here (List.mem_cons_of_mem _ member)) statement rest

theorem Advance.fits_of_extent (advance : Advance here before after placed)
    (small : ∀ statement ∈ placed, statement.content.extent < 0x80000003)
    (low : before.cursor.toNat ≤ 0x10000) :
    ∀ statement ∈ placed, statement.Fits ∧ (before.cursor + statement.content.size).toNat =
      before.cursor.toNat + statement.content.extent := by
  cases advance with
  | bare | constant | origin =>
      intro statement member
      cases member
  | statement read bound decided fits =>
      rename_i label written span content middle
      have small : content.extent < 0x80000003 := small _ (List.mem_singleton.mpr rfl)
      intro statement member
      rw [List.mem_singleton] at member
      subst member
      have same := bound.cursor_eq
      have sum := toNat_cursor_add low small
      have size : content.size.toNat = content.extent := by
        rw [content.toNat_size]
        omega
      have address : (middle.cursor % addressLimit).toNat ≤ before.cursor.toNat := by
        rw [UInt32.toNat_mod, same]
        exact Nat.mod_le _ _
      have stop : (middle.cursor + content.size).toNat ≤ 0x10000 := UInt32.le_iff_toNat_le.mp fits
      rw [same, sum] at stop
      refine ⟨⟨decided.complete, size, ?_⟩, sum⟩
      simp only [Placed.size, State.put, size]
      omega

theorem Advances.fits_of_extent (advances : Advances lines before after placed)
    (small : ∀ statement ∈ placed, statement.content.extent < 0x80000003)
    (low : before.cursor.toNat ≤ 0x10000) : ∀ statement ∈ placed, statement.Fits := by
  induction advances with
  | done =>
      intro statement member
      cases member
  | line now later ih =>
      intro statement member
      rcases List.mem_append.mp member with first | rest
      · exact (now.fits_of_extent (fun other among => small other (List.mem_append_left _ among))
          low statement first).1
      · exact ih (fun other among => small other (List.mem_append_right _ among))
          (now.cursor_le low) statement rest

theorem Advance.fits (advance : Advance here before after placed)
    (short : Text.byteLength here.text < 0x80000000) (low : before.cursor.toNat ≤ 0x10000) :
    ∀ statement ∈ placed, statement.Fits ∧ (before.cursor + statement.content.size).toNat =
      before.cursor.toNat + statement.content.extent :=
  advance.fits_of_extent (advance.extent_lt short) low

theorem Advances.fits (advances : Advances lines before after placed)
    (short : ∀ here ∈ lines, Text.byteLength here.text < 0x80000000)
    (low : before.cursor.toNat ≤ 0x10000) : ∀ statement ∈ placed, statement.Fits :=
  advances.fits_of_extent (advances.extent_lt short) low

end Layout

end EightBit
