import EightBit.Token

namespace EightBit

namespace Text

/-- A character ends at this byte and the next one starts there. -/
def Boundary (text : List Char) (place : Nat) : Prop :=
  ∃ front back, text = front ++ back ∧ byteLength front = place

variable {text : List Char} {place : Nat}

theorem boundary_zero (text : List Char) : Boundary text 0 := ⟨[], text, rfl, rfl⟩

theorem Boundary.le (boundary : Boundary text place) : place ≤ byteLength text := by
  obtain ⟨front, back, rfl, rfl⟩ := boundary
  rw [byteLength_append]
  exact Nat.le_add_right _ _

theorem Boundary.within (boundary : Boundary text place) (before after : List Char) :
    Boundary (before ++ text ++ after) (place + byteLength before) := by
  obtain ⟨front, back, rfl, rfl⟩ := boundary
  refine ⟨before ++ front, back ++ after, by simp only [List.append_assoc], ?_⟩
  rw [byteLength_append, Nat.add_comm]

end Text

namespace Span

structure EndsAt (P : Nat → Prop) (span : Span) : Prop where
  start : P span.start
  stop : P span.stop

variable {P : Nat → Prop}

theorem endsAt_empty {place : Nat} (holds : P place) : EndsAt P ⟨place, 0⟩ := ⟨holds, holds⟩

theorem endsAt_between {start stop : Nat} (first : P start) (last : P stop) :
    EndsAt P (.between start stop) := by
  refine ⟨first, ?_⟩
  have same : (Span.between start stop).stop = start ∨ (Span.between start stop).stop = stop := by
    simp only [Span.between, Span.stop]
    omega
  rcases same with same | same
  · rw [same]
    exact first
  · rw [same]
    exact last

theorem stop_shift (span : Span) (distance : Nat) :
    (span.shift distance).stop = span.stop + distance := Nat.add_right_comm _ _ _

end Span

namespace Token

def StandsIn (text : List Char) (token : Token) : Prop :=
  ∃ front back, text = front ++ token.text ++ back ∧ Text.byteLength front = token.start

variable {text : List Char} {token : Token}

theorem StandsIn.endsAt (stands : token.StandsIn text) :
    token.span.EndsAt (Text.Boundary text) := by
  obtain ⟨front, back, rfl, start⟩ := stands
  refine ⟨⟨front, token.text ++ back, List.append_assoc .., start⟩, ?_⟩
  refine ⟨front ++ token.text, back, rfl, ?_⟩
  rw [Text.byteLength_append, start]
  rfl

theorem standsIn_of_mem_tokensFrom (front cs : List Char) :
    ∀ token ∈ tokensFrom (Text.byteLength front) cs, token.StandsIn (front ++ cs) := by
  induction length : cs.length using Nat.strongRecOn generalizing front cs with
  | ind n ih =>
      cases cs with
      | nil =>
          rw [tokensFrom]
          exact List.forall_mem_nil _
      | cons c cs =>
          rw [tokensFrom]
          dsimp only
          generalize (scan c cs).1 = kind
          generalize (scan c cs).2 = count
          have whole : front ++ c :: cs = front ++ (c :: cs.take count) ++ cs.drop count := by
            rw [List.append_assoc, List.cons_append, List.take_append_drop]
          have shorter : (cs.drop count).length < n := by
            rw [← length, List.length_drop, List.length_cons]
            omega
          have later := ih _ shorter (front ++ (c :: cs.take count)) (cs.drop count) rfl
          rw [Text.byteLength_append, ← whole] at later
          exact List.forall_mem_cons.mpr ⟨⟨front, cs.drop count, whole, rfl⟩, later⟩

theorem standsIn_of_mem_tokens (member : token ∈ tokens text) : token.StandsIn text :=
  standsIn_of_mem_tokensFrom [] text token member

theorem endsAt_of_mem_significantTokens (member : token ∈ significantTokens text) :
    token.span.EndsAt (Text.Boundary text) :=
  (standsIn_of_mem_tokens (List.mem_filter.mp member).1).endsAt

end Token

end EightBit
