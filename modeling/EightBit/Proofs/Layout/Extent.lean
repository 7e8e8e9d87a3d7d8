import EightBit.Proofs.Layout.Advance
import EightBit.Proofs.Line.Operands

namespace EightBit

def DataItem.extent : DataItem → Nat
  | value _ => 1
  | string text => Text.byteLength text

def itemsExtent : List DataItem → Nat
  | [] => 0
  | item :: rest => item.extent + itemsExtent rest

namespace Content

/-- The bytes of a content, counted without bound. -/
def extent : Content → Nat
  | instruction _ mode _ => mode.size
  | bytes items => itemsExtent items
  | words values => 2 * values.length
  | terminated text => Text.byteLength text + 1

/-- An instruction has an operand exactly if its mode takes one. -/
def Complete : Content → Prop
  | instruction _ mode operand => operand = none ↔ mode = .implied
  | _ => True

end Content

theorem DataItem.toNat_size (item : DataItem) : item.size.toNat = item.extent % 0x100000000 := by
  cases item with
  | value expr => rfl
  | string text => exact UInt32.toNat_ofNat'

theorem toNat_foldl_size (items : List DataItem) (sum : UInt32) :
    (items.foldl (fun sum item => sum + item.size) sum).toNat =
      (sum.toNat + itemsExtent items) % 0x100000000 := by
  induction items generalizing sum with
  | nil =>
      have bound := sum.toNat_lt
      simp only [List.foldl_nil, itemsExtent]
      omega
  | cons item rest ih =>
      rw [List.foldl_cons, ih, UInt32.toNat_add, item.toNat_size, itemsExtent]
      omega

theorem Content.toNat_size (content : Content) :
    content.size.toNat = content.extent % 0x100000000 := by
  cases content with
  | instruction mnemonic mode operand => exact UInt32.toNat_ofNat'
  | bytes items =>
      have sum := toNat_foldl_size items 0
      rwa [UInt32.toNat_zero, Nat.zero_add] at sum
  | words values =>
      have two : (2 : UInt32).toNat = 2 := rfl
      rw [size, UInt32.toNat_mul, UInt32.toNat_ofNat', two, extent]
      omega
  | terminated text =>
      have one : (1 : UInt32).toNat = 1 := rfl
      rw [size, UInt32.toNat_add, UInt32.toNat_ofNat', one, extent]
      omega

namespace Layout

theorem collect_total_le {α : Type} {item? : Operand → Option α} {fault : DirectiveFault}
    (weight : α → Nat) (total : List α → Nat) (nil : total [] = 0)
    (cons : ∀ item rest, total (item :: rest) = weight item + total rest)
    (each : ∀ operand item, item? operand = some item → weight item ≤ operand.kind.extent + 1)
    {operands : List Operand} {items : List α}
    (collected : collect item? fault operands = .ok items) :
    total items ≤ operandsExtent operands := by
  induction operands generalizing items with
  | nil =>
      cases collected
      exact Nat.le_of_eq nil
  | cons operand rest ih =>
      rw [collect] at collected
      split at collected
      · rename_i item found
        rcases ok_of_map collected with ⟨more, others, rfl⟩
        have here := each operand item found
        have later := ih others
        rw [cons, operandsExtent]
        omega
      · cases collected

theorem extent_dataItem_le {operand : Operand} {item : DataItem}
    (found : dataItem? operand = some item) : item.extent ≤ operand.kind.extent + 1 := by
  unfold dataItem? at found
  split at found
  · cases found
    exact Nat.le_add_left _ _
  · rename_i text same
    cases found
    rw [same, DataItem.extent, OperandKind.extent]
    omega
  · cases found

theorem one_le_extent (kind : OperandKind) : 1 ≤ kind.extent := by
  cases kind <;> exact Nat.le_add_left _ _

inductive DataContent (operands : List Operand) : Content → Prop
  | bytes {fault : DirectiveFault} {items : List DataItem}
      (collected : collect dataItem? fault operands = .ok items) :
      DataContent operands (.bytes items)
  | words {fault : DirectiveFault} {values : List Expr}
      (collected : collect plainValue? fault operands = .ok values) :
      DataContent operands (.words values)
  | terminated {text : List Char} {span : Span} (single : operands = [⟨.string text, span⟩]) :
      DataContent operands (.terminated text)

theorem dataContent_cases {directive : Directive} {name : Ident} {operands : List Operand}
    {content : Content} (read : dataContent directive name operands = .ok content) :
    DataContent operands content := by
  unfold dataContent at read
  split at read
  · cases read
  · split at read
    · rcases ok_of_map read with ⟨items, collected, rfl⟩
      exact .bytes collected
    · rcases ok_of_map read with ⟨values, collected, rfl⟩
      exact .words collected
    · split at read
      · cases read
        exact .terminated rfl
      · cases read
    · cases read

theorem DataContent.extent_le {operands : List Operand} {content : Content}
    (data : DataContent operands content) : content.extent ≤ operandsExtent operands := by
  cases data with
  | bytes collected =>
      exact collect_total_le DataItem.extent itemsExtent rfl (fun _ _ => rfl)
        (fun _ _ => extent_dataItem_le) collected
  | words collected =>
      refine collect_total_le (fun _ => 2) (fun values => 2 * values.length) rfl ?_ ?_ collected
      · intro value rest
        rw [List.length_cons]
        omega
      · intro operand value _
        exact Nat.succ_le_succ (one_le_extent operand.kind)
  | terminated single =>
      simp only [single, Content.extent, operandsExtent, OperandKind.extent]
      omega

theorem DataContent.complete {operands : List Operand} {content : Content}
    (data : DataContent operands content) : content.Complete := by
  cases data <;> trivial

theorem Decides.extent_le {state : State} {statement : Statement} {span : Span} {content : Content}
    (decided : Decides state statement span content) :
    content.extent ≤ operandsExtent statement.operands + 3 := by
  cases decided with
  | data named places read => exact Nat.le_add_right_of_le (dataContent_cases read).extent_le
  | instruction named shaped supported =>
      rename_i mnemonic name operands mode operand
      have small : mode.size ≤ 3 := by cases mode <;> decide
      exact Nat.le_trans small (Nat.le_add_left _ _)

theorem directMode_ne_implied (state : State) (mnemonic : Mnemonic) (expr : Expr) :
    directMode state mnemonic expr ≠ .implied := by
  unfold directMode
  split
  · nofun
  · split
    · split
      · split <;> nofun
      · nofun
    · nofun

theorem complete_of_shape {state : State} {mnemonic : Mnemonic} {operands : List Operand}
    {mode : AddressingMode} {operand : Option Located}
    (shaped : shape? state mnemonic operands = some (mode, operand)) :
    operand = none ↔ mode = .implied := by
  unfold shape? at shaped
  split at shaped <;> cases shaped
  · exact iff_of_true rfl rfl
  · exact iff_of_false nofun nofun
  · exact iff_of_false nofun (directMode_ne_implied _ _ _)
  · exact iff_of_false nofun nofun
  · exact iff_of_false nofun nofun
  · exact iff_of_false nofun nofun

theorem Decides.complete {state : State} {statement : Statement} {span : Span} {content : Content}
    (decided : Decides state statement span content) : content.Complete := by
  cases decided with
  | data named places read => exact (dataContent_cases read).complete
  | instruction named shaped supported => exact complete_of_shape shaped

end Layout

end EightBit
