import EightBit.Proofs.Image.Writes

namespace EightBit

/-- Bytes from an address on, each with its own address. Behind the end of memory addresses start
again from zero. -/
def cellsFrom (start : Nat) : List UInt8 → List (Nat × UInt8)
  | [] => []
  | byte :: rest => (start % 0x10000, byte) :: cellsFrom (start + 1) rest

theorem cellsFrom_append (start : Nat) (front back : List UInt8) :
    cellsFrom start (front ++ back) =
      cellsFrom start front ++ cellsFrom (start + front.length) back := by
  induction front generalizing start with
  | nil => rfl
  | cons byte rest ih =>
      have behind : start + 1 + rest.length = start + (byte :: rest).length := by
        rw [List.length_cons]
        omega
      rw [List.cons_append, cellsFrom, cellsFrom, ih, behind, List.cons_append]

theorem cellsFrom_congr {start other : Nat} (same : start % 0x10000 = other % 0x10000)
    (bytes : List UInt8) : cellsFrom start bytes = cellsFrom other bytes := by
  induction bytes generalizing start other with
  | nil => rfl
  | cons byte rest ih =>
      have next : (start + 1) % 0x10000 = (other + 1) % 0x10000 := by omega
      rw [cellsFrom, cellsFrom, same, ih next]

theorem lt_of_mem_cellsFrom {start : Nat} {bytes : List UInt8} {cell : Nat × UInt8}
    (member : cell ∈ cellsFrom start bytes) : cell.1 < 0x10000 := by
  induction bytes generalizing start with
  | nil => cases member
  | cons byte rest ih =>
      rcases List.mem_cons.mp member with rfl | later
      · exact Nat.mod_lt _ (by decide)
      · exact ih later

namespace Image

def writeCells (image : Image) : List (Nat × UInt8) → Image × List Nat
  | [] => (image, [])
  | (address, byte) :: rest =>
    let after := (image.write address byte).writeCells rest
    (after.1, if (image.get? address).isSome then address :: after.2 else after.2)

variable {image : Image} {cells : List (Nat × UInt8)}

theorem writeCells_append (image : Image) (front back : List (Nat × UInt8)) :
    image.writeCells (front ++ back) =
      (((image.writeCells front).1.writeCells back).1,
        (image.writeCells front).2 ++ ((image.writeCells front).1.writeCells back).2) := by
  induction front generalizing image with
  | nil => rfl
  | cons cell rest ih =>
      obtain ⟨address, byte⟩ := cell
      simp only [List.cons_append, writeCells, ih]
      split <;> rfl

theorem writeAll_eq_writeCells (image : Image) (line start : Nat) (bytes : List UInt8) :
    ((image.writeAll line start bytes).1, (image.writeAll line start bytes).2.map (·.address)) =
      image.writeCells (cellsFrom start bytes) := by
  induction bytes generalizing image start with
  | nil => rfl
  | cons byte rest ih =>
      rw [cellsFrom, writeCells, ← ih, writeAll_cons_fst, writeAll_cons_snd]
      split <;> rfl

theorem get?_writeCells_of_absent {address : Nat} (absent : ∀ cell ∈ cells, cell.1 ≠ address)
    (image : Image) : (image.writeCells cells).1.get? address = image.get? address := by
  induction cells generalizing image with
  | nil => rfl
  | cons cell rest ih =>
      have later := ih fun other member => absent other (List.mem_cons_of_mem _ member)
      have apart : address ≠ cell.1 := (absent cell List.mem_cons_self).symm
      rw [writeCells, later, get?_write, if_neg apart]

theorem mem_of_get?_writeCells {address : Nat} {byte : UInt8}
    (found : (image.writeCells cells).1.get? address = some byte) :
    (address, byte) ∈ cells ∨ image.get? address = some byte := by
  induction cells generalizing image with
  | nil => exact Or.inr found
  | cons cell rest ih =>
      rw [writeCells] at found
      rcases ih found with later | now
      · exact Or.inl (List.mem_cons_of_mem _ later)
      · rw [get?_write] at now
        split at now
        · rename_i same
          cases now
          rw [same]
          exact Or.inl List.mem_cons_self
        · exact Or.inr now

end Image

end EightBit
