import EightBit.Proofs.Expr.Whole
import EightBit.Proofs.SymbolTable.Growth

/-!
Evaluation follows the symbols of an expression: they are looked up in the order they are written,
until one has no value. If all have one, the value is the one in whole numbers, as far as 64 bits
hold it.
-/
namespace EightBit.Expr

def compute : Expr → List Int64 → Int64 × List Int64
  | number value, given => (value, given)
  | symbol _, given => (given.headD 0, given.tail)
  | unary op operand, given => (operand.compute given).map op.apply id
  | binary op left right, given =>
    let first := left.compute given
    (right.compute first.2).map (op.apply first.1) id

theorem exists_compute (known : Ident → Int64) (expr : Expr) (rest : List Int64) :
    ∃ value, expr.compute (expr.symbols.map known ++ rest) = (value, rest) ∧
      value.toInt = wrapped (expr.whole known) := by
  induction expr generalizing rest with
  | number value => exact ⟨value, rfl, (Int64.toInt_bmod value).symm⟩
  | symbol ident => exact ⟨known ident, rfl, (Int64.toInt_bmod (known ident)).symm⟩
  | unary op operand ih =>
      obtain ⟨value, computed, held⟩ := ih rest
      refine ⟨op.apply value, ?_, op.toInt_apply held⟩
      rw [symbols, compute, computed]
      rfl
  | binary op left right ihl ihr =>
      obtain ⟨first, computedFirst, heldFirst⟩ := ihl (right.symbols.map known ++ rest)
      obtain ⟨second, computedSecond, heldSecond⟩ := ihr rest
      refine ⟨op.apply first second, ?_, op.toInt_apply heldFirst heldSecond⟩
      rw [symbols, List.map_append, List.append_assoc, compute, computedFirst]
      dsimp only
      rw [computedSecond]
      rfl

section Asking

variable {m : Type → Type} [Monad m]

/-- Looks symbols up, one after the other, until one has no value. -/
def askInTurn (lookup : Ident → m (Option Int64)) : List Ident → ExceptT Ident m (List Int64)
  | [] => pure []
  | ident :: rest => do
    match ← ExceptT.lift (lookup ident) with
    | some value => (value :: ·) <$> askInTurn lookup rest
    | none => throw ident

theorem askInTurn_congr {lookup other : Ident → m (Option Int64)} {idents : List Ident}
    (same : ∀ ident ∈ idents, lookup ident = other ident) :
    askInTurn lookup idents = askInTurn other idents := by
  induction idents with
  | nil => rfl
  | cons ident rest ih =>
      have later := ih fun next member => same next (List.mem_cons_of_mem _ member)
      rw [askInTurn, askInTurn, same ident List.mem_cons_self, later]

variable [LawfulMonad m]

-- The symbols of the right operand follow those of the left one, so the induction needs a rest that
-- is asked for behind the expression.
theorem evalM_then_ask (lookup : Ident → m (Option Int64)) (expr : Expr) (rest : List Ident) :
    (do
      let value ← expr.evalM lookup
      let later ← askInTurn lookup rest
      pure (value, later)) = expr.compute <$> askInTurn lookup (expr.symbols ++ rest) := by
  induction expr generalizing rest with
  | number value =>
      rw [evalM, pure_bind, symbols, List.nil_append, map_eq_pure_bind]
      rfl
  | symbol ident =>
      rw [evalM, symbols, List.singleton_append, askInTurn, bind_assoc, map_bind]
      refine congrArg _ (funext fun answer => ?_)
      cases answer with
      | some value =>
          simp only [pure_bind, bind_pure_comp, Functor.map_map]
          rfl
      | none =>
          apply ExceptT.ext
          simp
  | unary op operand ih =>
      have applied := congrArg (Prod.map op.apply id <$> ·) (ih rest)
      simp only [map_bind, map_pure, Functor.map_map] at applied
      simp only [evalM, symbols, bind_assoc, pure_bind]
      exact applied
  | binary op left right ihl ihr =>
      let resume (both : Int64 × List Int64) := (right.compute both.2).map (op.apply both.1) id
      have resumed := congrArg (resume <$> ·) (ihl (right.symbols ++ rest))
      simp only [map_bind, map_pure, Functor.map_map] at resumed
      rw [symbols, List.append_assoc]
      refine Eq.trans ?_ resumed
      simp only [evalM, bind_assoc, pure_bind]
      refine congrArg _ (funext fun first => ?_)
      have applied := congrArg (Prod.map (op.apply first) id <$> ·) (ihr rest)
      simp only [map_bind, map_pure, Functor.map_map] at applied
      rw [bind_pure_comp]
      exact applied

theorem evalM_eq_compute (lookup : Ident → m (Option Int64)) (expr : Expr) :
    expr.evalM lookup =
      (fun given => (expr.compute given).1) <$> askInTurn lookup expr.symbols := by
  have alone := congrArg (Prod.fst <$> ·) (evalM_then_ask lookup expr [])
  simp only [askInTurn, pure_bind, map_bind, map_pure, bind_pure, Functor.map_map,
    List.append_nil] at alone
  exact alone

end Asking

section Recording

variable {lookup : Ident → Option Int64} {known : Ident → Int64}
  {idents front back : List Ident} {ident : Ident}

def recording (lookup : Ident → Option Int64) (ident : Ident) :
    StateM (List Ident) (Option Int64) := do
  modify (· ++ [ident])
  pure (lookup ident)

theorem run_ask_cons_of_none (missing : lookup ident = none) (rest log : List Ident) :
    (askInTurn (recording lookup) (ident :: rest)).run.run log =
      (.error ident, log ++ [ident]) := by
  rw [askInTurn]
  simp only [recording, missing]
  rfl

theorem run_ask_cons_of_some {value : Int64} (found : lookup ident = some value)
    (rest log : List Ident) :
    (askInTurn (recording lookup) (ident :: rest)).run.run log =
      ((askInTurn (recording lookup) rest).run.run (log ++ [ident])).map
        (·.map (value :: ·)) id := by
  have step : (askInTurn (recording lookup) (ident :: rest)).run.run log =
      ((value :: ·) <$> askInTurn (recording lookup) rest).run.run (log ++ [ident]) := by
    rw [askInTurn]
    simp only [recording, found]
    rfl
  rw [step, ExceptT.run_map]
  rfl

theorem run_ask_of_known (each : ∀ ident ∈ idents, lookup ident = some (known ident))
    (log : List Ident) :
    (askInTurn (recording lookup) idents).run.run log =
      (.ok (idents.map known), log ++ idents) := by
  induction idents generalizing log with
  | nil =>
      rw [List.append_nil]
      rfl
  | cons ident rest ih =>
      have later := ih (fun other member => each other (List.mem_cons_of_mem _ member))
        (log ++ [ident])
      rw [run_ask_cons_of_some (each ident List.mem_cons_self), later, List.append_assoc]
      rfl

theorem run_ask_of_missing (each : ∀ ident ∈ front, lookup ident = some (known ident))
    (missing : lookup ident = none) (back log : List Ident) :
    (askInTurn (recording lookup) (front ++ ident :: back)).run.run log =
      (.error ident, log ++ (front ++ [ident])) := by
  induction front generalizing log with
  | nil => exact run_ask_cons_of_none missing back log
  | cons first rest ih =>
      have later := ih (fun other member => each other (List.mem_cons_of_mem _ member))
        (log ++ [first])
      rw [List.cons_append, run_ask_cons_of_some (each first List.mem_cons_self), later,
        List.append_assoc]
      rfl

theorem fst_run_ask (lookup : Ident → Option Int64) (idents log : List Ident) :
    ((askInTurn (recording lookup) idents).run.run log).1 =
      (askInTurn (m := Id) (fun ident => pure (lookup ident)) idents).run := by
  induction idents generalizing log with
  | nil => rfl
  | cons ident rest ih =>
      cases found : lookup ident with
      | none =>
          rw [run_ask_cons_of_none found, askInTurn]
          simp only [found]
          rfl
      | some value =>
          have step :
              (askInTurn (m := Id) (fun ident => pure (lookup ident)) (ident :: rest)).run =
                ((value :: ·) <$>
                  askInTurn (m := Id) (fun ident => pure (lookup ident)) rest).run := by
            rw [askInTurn]
            simp only [found]
            rfl
          rw [run_ask_cons_of_some found, Prod.map_fst, ih, step, ExceptT.run_map]
          rfl

theorem eval_eq_map_run_ask (lookup : Ident → Option Int64) (expr : Expr) :
    expr.eval lookup =
      ((askInTurn (recording lookup) expr.symbols).run.run []).1.map
        fun given => (expr.compute given).1 := by
  rw [eval, evalM_eq_compute, fst_run_ask, ExceptT.run_map]
  rfl

theorem lookedUp_eq_run_ask (lookup : Ident → Option Int64) (expr : Expr) :
    expr.lookedUp lookup = ((askInTurn (recording lookup) expr.symbols).run.run []).2 := by
  have asked : expr.lookedUp lookup = ((expr.evalM (recording lookup)).run.run []).2 := rfl
  rw [asked, evalM_eq_compute, ExceptT.run_map]
  rfl

theorem eq_some_getD {answer : Option Int64} (known : answer.isSome) :
    answer = some (answer.getD 0) := by
  obtain ⟨value, rfl⟩ := Option.isSome_iff_exists.mp known
  rfl

theorem eval_of_known {expr : Expr}
    (each : ∀ ident ∈ expr.symbols, lookup ident = some (known ident)) :
    expr.lookedUp lookup = expr.symbols ∧
      ∃ value, expr.eval lookup = .ok value ∧ value.toInt = wrapped (expr.whole known) := by
  have asked := run_ask_of_known each []
  obtain ⟨value, computed, held⟩ := exists_compute known expr []
  rw [List.append_nil] at computed
  refine ⟨?_, value, ?_, held⟩
  · rw [lookedUp_eq_run_ask, asked, List.nil_append]
  · rw [eval_eq_map_run_ask, asked, Except.map, computed]

theorem eval_of_missing {expr : Expr} (split : expr.symbols = front ++ ident :: back)
    (each : ∀ other ∈ front, (lookup other).isSome) (missing : lookup ident = none) :
    expr.lookedUp lookup = front ++ [ident] ∧ expr.eval lookup = .error ident := by
  have values : ∀ other ∈ front, lookup other = some ((lookup other).getD 0) :=
    fun other member => eq_some_getD (each other member)
  have asked := run_ask_of_missing values missing back []
  rw [← split, List.nil_append] at asked
  refine ⟨?_, ?_⟩
  · rw [lookedUp_eq_run_ask, asked]
  · rw [eval_eq_map_run_ask, asked]
    rfl

theorem known_or_missing (lookup : Ident → Option Int64) (idents : List Ident) :
    (∃ known : Ident → Int64, ∀ ident ∈ idents, lookup ident = some (known ident)) ∨
      ∃ front ident back, idents = front ++ ident :: back ∧
        (∀ other ∈ front, (lookup other).isSome) ∧ lookup ident = none := by
  cases found : idents.find? fun ident => (lookup ident).isNone with
  | none =>
      refine Or.inl ⟨fun ident => (lookup ident).getD 0, fun ident member => ?_⟩
      have some : lookup ident ≠ none := by simpa using List.find?_eq_none.mp found ident member
      exact eq_some_getD (Option.isSome_iff_ne_none.mpr some)
  | some first =>
      obtain ⟨absent, front, back, split, known⟩ := List.find?_eq_some_iff_append.mp found
      refine Or.inr ⟨front, first, back, split, fun other before => ?_, ?_⟩
      · simpa using known other before
      · exact Option.isNone_iff_eq_none.mp absent

theorem eval_fails_iff {expr : Expr} :
    (∃ ident, expr.eval lookup = .error ident) ↔ ∃ ident ∈ expr.symbols, lookup ident = none := by
  rcases known_or_missing lookup expr.symbols with ⟨known, each⟩ | missing
  · obtain ⟨-, value, made, -⟩ := eval_of_known each
    constructor
    · rintro ⟨ident, failed⟩
      cases failed.symm.trans made
    · rintro ⟨ident, member, unknown⟩
      cases unknown.symm.trans (each ident member)
  · obtain ⟨front, first, back, split, each, unknown⟩ := missing
    have member : first ∈ expr.symbols := split ▸ List.mem_append_right front List.mem_cons_self
    exact iff_of_true ⟨first, (eval_of_missing split each unknown).2⟩ ⟨first, member, unknown⟩

theorem lookedUp_congr {other : Ident → Option Int64} {expr : Expr}
    (same : ∀ ident ∈ expr.symbols, lookup ident = other ident) :
    expr.lookedUp lookup = expr.lookedUp other := by
  have alike : askInTurn (recording lookup) expr.symbols =
      askInTurn (recording other) expr.symbols :=
    askInTurn_congr fun ident member => by rw [recording, recording, same ident member]
  rw [lookedUp_eq_run_ask, lookedUp_eq_run_ask, alike]

end Recording

/-- Evaluation looks up the symbols in the order they are written, up to the first that has no
value, and fails exactly if there is one, with that occurrence. Otherwise it gives the value in
whole numbers, as far as 64 bits hold it, which depends on nothing but the values of the symbols.
Also a lookup with effects is asked for the symbols in turn, and for nothing else. -/
theorem evaluation_follows_symbols (expr : Expr) :
    (∀ lookup : Ident → Option Int64,
      (∀ front ident back, expr.symbols = front ++ ident :: back →
        (∀ other ∈ front, (lookup other).isSome) → lookup ident = none →
        expr.lookedUp lookup = front ++ [ident] ∧ expr.eval lookup = .error ident) ∧
      (∀ known : Ident → Int64, (∀ ident ∈ expr.symbols, lookup ident = some (known ident)) →
        expr.lookedUp lookup = expr.symbols ∧
        ∃ value, expr.eval lookup = .ok value ∧ value.toInt = wrapped (expr.whole known)) ∧
      ((∃ ident, expr.eval lookup = .error ident) ↔ ∃ ident ∈ expr.symbols, lookup ident = none) ∧
      ∀ other : Ident → Option Int64, (∀ ident ∈ expr.symbols, lookup ident = other ident) →
        expr.eval lookup = expr.eval other ∧ expr.lookedUp lookup = expr.lookedUp other) ∧
    ∀ {σ : Type} (lookup : Ident → StateM σ (Option Int64)),
      expr.evalM lookup =
        (fun given => (expr.compute given).1) <$> askInTurn lookup expr.symbols := by
  refine ⟨fun lookup => ⟨?_, ?_, ?_, ?_⟩, fun lookup => evalM_eq_compute lookup expr⟩
  · intro front ident back split each missing
    exact eval_of_missing split each missing
  · intro known each
    exact eval_of_known each
  · exact eval_fails_iff
  · exact fun other same => ⟨eval_congr same, lookedUp_congr same⟩

theorem evaluation_follows_symbols_to_missing :
    let a : Ident := ⟨"A", ⟨1, 1⟩⟩
    let b : Ident := ⟨"B", ⟨5, 1⟩⟩
    let again : Ident := ⟨"A", ⟨7, 1⟩⟩
    let expr := binary .subtract
      (binary .subtract (unary .high (unary .negate (symbol a))) (symbol b)) (symbol again)
    let few := fun ident : Ident => if ident.name = "A" then some (1 : Int64) else none
    let known := fun ident : Ident => if ident.name = "A" then (1 : Int64) else Int64.minValue
    expr.symbols = [a, b, again] ∧ expr.lookedUp few = [a, b] ∧ expr.eval few = .error b ∧
      ∃ value, expr.eval (some ∘ known) = .ok value ∧ value.toInt = 254 - 0x8000000000000000 := by
  intro a b again expr few known
  have asked := ((evaluation_follows_symbols expr).1 few).1 [a] b [again] rfl
    (by decide) (by decide)
  obtain ⟨-, value, made, held⟩ :=
    ((evaluation_follows_symbols expr).1 (some ∘ known)).2.1 known fun _ _ => rfl
  exact ⟨rfl, asked.1, asked.2, value, made, held.trans (by decide)⟩

end EightBit.Expr
