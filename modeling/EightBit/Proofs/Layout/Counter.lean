import Mathlib.Data.List.Forall2
import Mathlib.Data.List.Induction
import EightBit.Proofs.Layout.Growth
import EightBit.Proofs.Layout.Sizes

/-!
The layout of a source, told with a counter that is an integer: it is set by the lines for the
origin, grows by the sizes of the statements, and is the address of every statement and the value
of every label.
-/
namespace EightBit

namespace SourceLine

def label? (here : SourceLine) : Option Ident :=
  match Line.parse here.text with
  | .ok line => line.label
  | .error _ => none

def statement? (here : SourceLine) : Option Statement :=
  match Line.parse here.text with
  | .ok line => line.statement
  | .error _ => none

end SourceLine

namespace Statement

def placesBytes : Statement → Bool
  | constant .. => false
  | directive name _ => (Directive.ofName? name.name).any (· ≠ .org)
  | instruction .. => true

def setsOrigin : Statement → Bool
  | directive name _ => Directive.ofName? name.name = some .org
  | _ => false

def origin? (symbols : SymbolTable) (statement : Statement) : Option Int :=
  match statement with
  | directive _ [⟨.value expr, _⟩] =>
    if statement.setsOrigin then (symbols.evaluate expr).toOption.map (·.toInt) else none
  | _ => none

end Statement

namespace Layout

/-- The counter at a line, behind the origin that the line sets and before what it places. -/
def counterAt (symbols : SymbolTable) (counter : Int) (here : SourceLine) : Int :=
  (here.statement?.bind (·.origin? symbols)).getD counter

def sizeAt (layout : Layout) (here : SourceLine) : Nat :=
  (layout.statements.find? (·.line = here.number)).elim 0 (·.size)

def counterAfter (layout : Layout) (lines : List SourceLine) : Int :=
  lines.foldl (fun counter here => counterAt layout.symbols counter here + layout.sizeAt here) 0

theorem counterAfter_concat (layout : Layout) (front : List SourceLine) (here : SourceLine) :
    counterAfter layout (front ++ [here]) =
      counterAt layout.symbols (counterAfter layout front) here + layout.sizeAt here := by
  rw [counterAfter, List.foldl_append]
  rfl

end Layout

theorem Line.label_eq_none_of_constant {text : List Char} {label : Option Ident} {name : Ident}
    {value : Expr} (read : parse text = .ok ⟨label, some (.constant name value)⟩) :
    label = none := by
  rcases ok_of_bind read with ⟨_, -, parsed⟩
  dsimp only at parsed
  split at parsed
  · cases parsed
  · rename_i token rest
    rcases ok_of_bind parsed with ⟨⟨statement, left⟩, found, last⟩
    split at last
    · cases last
      unfold readStatement at found
      split at found
      · split at found
        · cases found
        · assumption
      · split at found
        · rcases ok_of_map found with ⟨_, -, same⟩
          cases same
        · rcases ok_of_map found with ⟨_, -, same⟩
          cases same
        · cases found
    · cases last

namespace Layout

variable {here : SourceLine} {lines : List SourceLine} {before after : State} {placed : List Placed}
variable {symbols : SymbolTable}

theorem statement?_of_read {line : Line} (read : Line.parse here.text = .ok line) :
    here.statement? = line.statement := by
  simp only [SourceLine.statement?, read]

theorem label?_of_read {line : Line} (read : Line.parse here.text = .ok line) :
    here.label? = line.label := by
  simp only [SourceLine.label?, read]

theorem Binds.lookup_label {label : Ident} (bound : Binds here (some label) before after) :
    ∃ value, after.symbols.lookup label.name = some ⟨value, .label, here.number⟩ ∧
      value.toInt = before.cursor.toNat ∧ before.cursor.toNat ≤ 0xFFFF := by
  cases bound with
  | labelled below added =>
      have low : before.cursor.toNat < 0x10000 := UInt32.lt_iff_toNat_lt.mp below
      have small : before.cursor.toNat < 0x8000000000000000 := by omega
      exact ⟨_, SymbolTable.lookup_self_of_add added, Int64.toInt_ofNat_of_lt small, by omega⟩

theorem counterAt_of_read {line : Line} (read : Line.parse here.text = .ok line) (counter : Int) :
    counterAt symbols counter here = (line.statement.bind (·.origin? symbols)).getD counter := by
  rw [counterAt, statement?_of_read read]

theorem origin?_of_known {name : Ident} {expr : Expr} {span : Span} {value : Int64}
    (named : Directive.ofName? name.name = some .org) (known : symbols.evaluate expr = .ok value) :
    Statement.origin? symbols (.directive name [⟨.value expr, span⟩]) = some value.toInt := by
  simp [Statement.origin?, Statement.setsOrigin, named, known, Except.toOption]

theorem Decides.origin?_eq_none {state : State} {statement : Statement} {span : Span}
    {content : Content} (decided : Decides state statement span content) :
    statement.origin? symbols = none := by
  cases decided with
  | instruction => rfl
  | data named places =>
      unfold Statement.origin?
      split
      · rename_i same
        cases same
        simp [Statement.setsOrigin, named, places]
      · rfl

/-- What a line does to the counter, to its statements and to its label. -/
structure Counts (symbols : SymbolTable) (here : SourceLine) (before after : State)
    (placed : List Placed) : Prop where
  next : (after.cursor.toNat : Int) =
    counterAt symbols before.cursor.toNat here + (placed.head?.elim 0 (·.size) : Nat)
  address : ∀ statement ∈ placed, 1 ≤ statement.size →
    (statement.address : Int) = counterAt symbols before.cursor.toNat here
  label : ∀ label, here.label? = some label → ∃ value,
    after.symbols.lookup label.name = some ⟨value, .label, here.number⟩ ∧
      value.toInt = counterAt symbols before.cursor.toNat here ∧
      0 ≤ value.toInt ∧ value.toInt ≤ 0xFFFF

theorem Binds.counts_label {label : Option Ident} {counter : Int}
    (bound : Binds here label before after) (labelled : here.label? = label)
    (same : counter = before.cursor.toNat) : ∀ label, here.label? = some label → ∃ value,
      after.symbols.lookup label.name = some ⟨value, .label, here.number⟩ ∧
        value.toInt = counter ∧ 0 ≤ value.toInt ∧ value.toInt ≤ 0xFFFF := by
  intro label named
  rw [labelled] at named
  subst named
  rcases bound.lookup_label with ⟨value, found, valued, low⟩
  refine ⟨value, found, valued.trans same.symm, ?_, ?_⟩
  · rw [valued]
    exact Int.natCast_nonneg _
  · rw [valued]
    exact Int.ofNat_le.mpr low

theorem Binds.counts {label : Option Ident} {middle : State}
    (bound : Binds here label middle after) (labelled : here.label? = label)
    (set : counterAt symbols before.cursor.toNat here = middle.cursor.toNat) :
    Counts symbols here before after [] := by
  constructor
  · rw [set, bound.cursor_eq]
    exact (Int.add_zero _).symm
  · intro statement member
    cases member
  · exact bound.counts_label labelled set

theorem Advance.counts (advance : Advance here before after placed)
    (grows : SymbolTable.Grows (here.number < ·) after.symbols symbols)
    (short : Text.byteLength here.text < 0x80000000) (low : before.cursor.toNat ≤ 0x10000) :
    Counts symbols here before after placed := by
  have fitting := advance.fits short low
  cases advance with
  | bare read bound => exact bound.counts (label?_of_read read) (counterAt_of_read read _)
  | constant read known added =>
      have unlabelled := Line.label_eq_none_of_constant read
      subst unlabelled
      constructor
      · rw [counterAt_of_read read]
        exact (Int.add_zero _).symm
      · intro statement member
        cases member
      · intro label named
        rw [label?_of_read read] at named
        cases named
  | origin read named known inside bound =>
      have final := grows.evaluate (bound.grows.evaluate known)
      refine bound.counts (label?_of_read read) ?_
      rw [counterAt_of_read read, Option.bind_some, origin?_of_known named final]
      exact (toInt_origin inside).1.symm
  | statement read bound decided fits =>
      rename_i label statement span content middle
      have same := bound.cursor_eq
      have at_cursor : counterAt symbols before.cursor.toNat here = before.cursor.toNat := by
        rw [counterAt_of_read read, Option.bind_some, decided.origin?_eq_none]
        rfl
      rcases fitting _ (List.mem_singleton.mpr rfl) with ⟨placing, sum⟩
      have size : (middle.put here span content).size = content.extent := placing.size_eq
      have stop : (middle.cursor + content.size).toNat = before.cursor.toNat + content.extent := by
        rw [same]
        exact sum
      constructor
      · rw [at_cursor, List.head?_cons, Option.elim_some, size]
        exact congrArg Int.ofNat stop
      · intro statement member some_byte
        rw [List.mem_singleton] at member
        subst member
        rw [size] at some_byte
        have below : before.cursor.toNat + content.extent ≤ 0x10000 := by
          rw [← stop]
          exact UInt32.le_iff_toNat_le.mp fits
        have address : (middle.cursor % addressLimit).toNat = before.cursor.toNat := by
          rw [UInt32.toNat_mod, same, toNat_addressLimit]
          exact Nat.mod_eq_of_lt (by omega)
        rw [at_cursor]
        exact congrArg Int.ofNat address
      · exact bound.counts_label (label?_of_read read) at_cursor

def Records (here : SourceLine) (placed : Placed) : Prop :=
  placed.line = here.number ∧ placed.offset = here.offset ∧
    ∃ statement state, here.statement? = some statement ∧
      Decides state statement placed.span placed.content

def placesBytes (here : SourceLine) : Bool := here.statement?.any (·.placesBytes)

theorem placesBytes_of_read {line : Line} (read : Line.parse here.text = .ok line) :
    placesBytes here = line.statement.any (·.placesBytes) := by
  rw [placesBytes, statement?_of_read read]

theorem Advance.records (advance : Advance here before after placed) :
    List.Forall₂ Records ([here].filter placesBytes) placed := by
  rw [List.filter_singleton]
  cases advance with
  | bare read bound =>
      rw [placesBytes_of_read read]
      exact .nil
  | constant read known added =>
      rw [placesBytes_of_read read]
      exact .nil
  | origin read named known inside bound =>
      rw [placesBytes_of_read read, Option.any_some, Statement.placesBytes, named]
      exact .nil
  | statement read bound decided fits =>
      rename_i statement _ _ _
      have places : statement.placesBytes = true := by
        cases decided with
        | data named places => simp [Statement.placesBytes, named, places]
        | instruction => rfl
      rw [placesBytes_of_read read, Option.any_some, places]
      exact .cons ⟨rfl, rfl, _, _, statement?_of_read read, decided⟩ .nil

theorem Advances.records (advances : Advances lines before after placed) :
    List.Forall₂ Records (lines.filter placesBytes) placed := by
  induction advances with
  | done => exact .nil
  | line now later ih =>
      rename_i here rest _ _ _ _ _
      have split : (here :: rest).filter placesBytes =
          [here].filter placesBytes ++ rest.filter placesBytes := List.filter_append [here] rest
      rw [split]
      exact List.rel_append now.records ih

theorem Advance.origin_known {statement : Statement} (advance : Advance here before after placed)
    (grows : SymbolTable.Grows (here.number < ·) after.symbols symbols)
    (states : here.statement? = some statement) (sets : statement.setsOrigin = true) :
    ∃ origin, statement.origin? symbols = some origin := by
  cases advance with
  | bare read bound =>
      rw [statement?_of_read read] at states
      cases states
  | constant read known added =>
      rw [statement?_of_read read] at states
      cases states
      cases sets
  | origin read named known inside bound =>
      rw [statement?_of_read read] at states
      cases states
      exact ⟨_, origin?_of_known named (grows.evaluate (bound.grows.evaluate known))⟩
  | statement read bound decided fits =>
      rw [statement?_of_read read] at states
      cases states
      cases decided with
      | data named places => simp [Statement.setsOrigin, named, places] at sets
      | instruction => cases sets

def Labels (name : String) (here : SourceLine) : Prop :=
  ∃ label, here.label? = some label ∧ SymbolTable.key label.name = SymbolTable.key name

theorem Binds.labels_of_lookup {label : Option Ident} {name : String} {symbol : Symbol}
    (bound : Binds here label before after) (labelled : here.label? = label)
    (found : after.symbols.lookup name = some symbol) :
    before.symbols.lookup name = some symbol ∨ Labels name here := by
  cases bound with
  | unlabelled => exact Or.inl found
  | labelled below added =>
      rw [SymbolTable.lookup_add added, Option.or_eq_some_iff] at found
      rcases found with old | ⟨-, new⟩
      · exact Or.inl old
      · split at new
        · rename_i same
          exact Or.inr ⟨_, labelled, same.symm⟩
        · cases new

theorem Advance.labels_of_lookup {name : String} {symbol : Symbol}
    (advance : Advance here before after placed) (found : after.symbols.lookup name = some symbol)
    (label : symbol.kind = .label) :
    before.symbols.lookup name = some symbol ∨ Labels name here := by
  cases advance with
  | bare read bound => exact bound.labels_of_lookup (label?_of_read read) found
  | origin read named known inside bound =>
      exact bound.labels_of_lookup (label?_of_read read) found
  | statement read bound decided fits => exact bound.labels_of_lookup (label?_of_read read) found
  | constant read known added =>
      rw [SymbolTable.lookup_add added, Option.or_eq_some_iff] at found
      rcases found with old | ⟨-, new⟩
      · exact Or.inl old
      · split at new
        · cases new
          cases label
        · cases new

theorem Advances.labels_of_lookup {name : String} {symbol : Symbol}
    (advances : Advances lines before after placed)
    (found : after.symbols.lookup name = some symbol) (label : symbol.kind = .label) :
    before.symbols.lookup name = some symbol ∨ ∃ here ∈ lines, Labels name here := by
  induction advances with
  | done => exact Or.inl found
  | line now later ih =>
      rcases ih found with early | ⟨here, member, labels⟩
      · rcases now.labels_of_lookup early label with old | labels
        · exact Or.inl old
        · exact Or.inr ⟨_, List.mem_cons_self, labels⟩
      · exact Or.inr ⟨here, List.mem_cons_of_mem _ member, labels⟩

section Source

variable {source : List Char} {layout : Layout} {front back : List SourceLine}

theorem counts_of_split (short : Text.byteLength source < 0x80000000)
    (laid : (ofSource source).1 = .ok layout)
    (split : SourceLine.ofSource source = front ++ here :: back) :
    Counts layout.symbols here (stateAfter front) (stateAfter (front ++ [here]))
        (layout.statements.filter (·.line = here.number)) ∧
      SymbolTable.Grows (here.number < ·) (stateAfter (front ++ [here])).symbols
        layout.symbols := by
  rcases advance_of_split laid split with ⟨placed, advance, grows, only⟩
  rcases advances_around laid split with ⟨next, final, early, now, late, first, -⟩
  have member : here ∈ SourceLine.ofSource source := by
    rw [split]
    exact List.mem_append_right _ List.mem_cons_self
  have within := Nat.lt_of_le_of_lt (SourceLine.byteLength_text_le member) short
  rw [only]
  exact ⟨advance.counts grows within (first.cursor_le (Nat.zero_le _)), grows⟩

theorem cursor_eq_counterAfter (short : Text.byteLength source < 0x80000000)
    (laid : (ofSource source).1 = .ok layout)
    (split : SourceLine.ofSource source = front ++ back) :
    ((stateAfter front).cursor.toNat : Int) = counterAfter layout front := by
  induction front using List.reverseRecOn generalizing back with
  | nil => rfl
  | append_singleton front here ih =>
      have split' : SourceLine.ofSource source = front ++ here :: back := by
        rw [split, List.append_assoc, List.singleton_append]
      have counts := (counts_of_split short laid split').1
      rw [counts.next, ih split', counterAfter_concat, sizeAt, List.head?_filter]

theorem lookup_of_label (short : Text.byteLength source < 0x80000000)
    (laid : (ofSource source).1 = .ok layout)
    (split : SourceLine.ofSource source = front ++ here :: back) {label : Ident}
    (labelled : here.label? = some label) : ∃ value,
      layout.symbols.lookup label.name = some ⟨value, .label, here.number⟩ ∧
        value.toInt = counterAt layout.symbols (counterAfter layout front) here ∧
        0 ≤ value.toInt ∧ value.toInt ≤ 0xFFFF := by
  rcases counts_of_split short laid split with ⟨counts, grows⟩
  rcases counts.label label labelled with ⟨value, found, same, range⟩
  rw [cursor_eq_counterAfter short laid split] at same
  exact ⟨value, grows.kept found, same, range⟩

/-- The layout of a source, told with the integer counter. Every line that sets the origin has a
value for it, every statement stands at the counter before it unless it is empty, and the labels
are exactly those of the lines. -/
theorem layout_follows_counter {source : List Char} {layout : Layout}
    (short : Text.byteLength source < 0x80000000) (laid : (ofSource source).1 = .ok layout) :
    (∀ here ∈ SourceLine.ofSource source, here.StandsIn source) ∧
    List.Forall₂ Records ((SourceLine.ofSource source).filter placesBytes) layout.statements ∧
    (∀ front here back, SourceLine.ofSource source = front ++ here :: back →
      (∀ statement, here.statement? = some statement → statement.setsOrigin = true →
        ∃ origin, statement.origin? layout.symbols = some origin) ∧
      (∀ placed ∈ layout.statements, placed.line = here.number → 1 ≤ placed.size →
        (placed.address : Int) = counterAt layout.symbols (counterAfter layout front) here) ∧
      ∀ label, here.label? = some label → ∃ value,
        layout.symbols.lookup label.name = some ⟨value, .label, here.number⟩ ∧
          value.toInt = counterAt layout.symbols (counterAfter layout front) here) ∧
    ∀ name symbol, layout.symbols.lookup name = some symbol → symbol.kind = .label →
      0 ≤ symbol.value.toInt ∧ symbol.value.toInt ≤ 0xFFFF ∧
        ∃ here ∈ SourceLine.ofSource source, here.number = symbol.line ∧ Labels name here := by
  rcases ofSource_eq_ok_iff.mp laid with ⟨final, advances, last⟩
  refine ⟨fun here => SourceLine.standsIn_of_mem, advances.records, ?_, ?_⟩
  · intro front here back split
    rcases counts_of_split short laid split with ⟨counts, grows⟩
    rcases advance_of_split laid split with ⟨placed, advance, -, -⟩
    refine ⟨fun statement => advance.origin_known grows, ?_, ?_⟩
    · intro placed member line some_byte
      have among : placed ∈ layout.statements.filter (·.line = here.number) :=
        List.mem_filter.mpr ⟨member, decide_eq_true line⟩
      have address := counts.address placed among some_byte
      rwa [cursor_eq_counterAfter short laid split] at address
    · intro label labelled
      rcases lookup_of_label short laid split labelled with ⟨value, found, same, -⟩
      exact ⟨value, found, same⟩
  · intro name symbol found label
    rw [last] at found
    rcases advances.labels_of_lookup found label with none | ⟨here, member, labels⟩
    · cases none
    · rcases labels with ⟨ident, labelled, same⟩
      rcases List.append_of_mem member with ⟨front, back, split⟩
      rcases lookup_of_label short laid split labelled with ⟨value, stands, -, range⟩
      -- both names are one key of the table
      have one : layout.symbols.lookup ident.name = layout.symbols.lookup name := by
        rw [SymbolTable.lookup, SymbolTable.lookup, same]
      rw [one, last, found] at stands
      cases stands
      exact ⟨range.1, range.2, here, member, rfl, ident, labelled, same⟩

theorem layout_follows_counter_to_end :
    let source := "A: .ORG $FFFE\n.WORD A\n.BYTE \"\"\n.ORG 2\nC: NOP".toList
    let lines := SourceLine.ofSource source
    ∃ layout, (ofSource source).1 = .ok layout ∧
      layout.statements.map (fun placed => (placed.line, placed.offset, placed.address)) =
        [(2, 14, 0xFFFE), (3, 22, 0), (5, 38, 2)] ∧
      counterAfter layout (lines.take 2) = 0x10000 ∧
      counterAt layout.symbols (counterAfter layout (lines.take 1)) ⟨2, 14, ".WORD A".toList⟩ =
        0xFFFE ∧
      ∃ value, layout.symbols.lookup "A" = some ⟨value, .label, 1⟩ ∧ value.toInt = 0xFFFE := by
  intro source lines
  let last : Expr := .symbol ⟨"A", ⟨6, 1⟩⟩
  let word : Placed := ⟨2, 14, 0xFFFE, ⟨0, 5⟩, .words [last]⟩
  let layout : Layout :=
    ⟨[word, ⟨3, 22, 0, ⟨0, 5⟩, .bytes [.string []]⟩,
        ⟨5, 38, 2, ⟨3, 3⟩, .instruction .nop .implied none⟩],
      ⟨[("A", ⟨0xFFFE, .label, 1⟩), ("C", ⟨2, .label, 5⟩)]⟩⟩
  have short : Text.byteLength source < 0x80000000 := by decide +kernel
  have laid : (ofSource source).1 = .ok layout := by decide +kernel
  rcases layout_follows_counter short laid with ⟨-, -, along, -⟩
  have first : lines = [] ++ ⟨1, 0, "A: .ORG $FFFE".toList⟩ :: lines.drop 1 := rfl
  have second : lines = lines.take 1 ++ ⟨2, 14, ".WORD A".toList⟩ :: lines.drop 2 := rfl
  rcases along _ _ _ first with ⟨-, -, labels⟩
  rcases along _ _ _ second with ⟨-, addresses, -⟩
  have address := addresses word List.mem_cons_self rfl (by decide)
  rcases labels ⟨"A", ⟨0, 1⟩⟩ (by decide +kernel) with ⟨value, found, same⟩
  have origin : counterAt layout.symbols (counterAfter layout []) ⟨1, 0, "A: .ORG $FFFE".toList⟩ =
      0xFFFE := by decide +kernel
  exact ⟨layout, laid, rfl, by decide +kernel, address.symm, value, found, same.trans origin⟩

end Source

end Layout

end EightBit
