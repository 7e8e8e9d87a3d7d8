/-!
Computations that succeeded, taken apart: every part of them succeeded. What a computation gives,
whether it succeeds or fails. Two computations side by side: they agree if their parts do.
-/
namespace EightBit

variable {ε α β : Type}

theorem ok_of_bind {first : Except ε α} {next : α → Except ε β} {result : β}
    (success : first.bind next = .ok result) :
    ∃ value, first = .ok value ∧ next value = .ok result := by
  cases first with
  | error reason => cases success
  | ok value => exact ⟨value, rfl, success⟩

theorem ok_of_map {first : Except ε α} {f : α → β} {result : β}
    (success : first.map f = .ok result) : ∃ value, first = .ok value ∧ f value = result := by
  cases first with
  | error reason => cases success
  | ok value => exact ⟨value, rfl, Except.ok.inj success⟩

/-- What a computation gives: a value of one kind, or a fault of another. -/
inductive Gives (E : ε → Prop) (R : α → Prop) : Except ε α → Prop
  | ok {value : α} (holds : R value) : Gives E R (.ok value)
  | error {fault : ε} (holds : E fault) : Gives E R (.error fault)

namespace Gives

variable {E : ε → Prop} {R : α → Prop} {S : β → Prop} {first : Except ε α}

theorem bind {next : α → Except ε β} (now : Gives E R first)
    (later : ∀ value, R value → Gives E S (next value)) : Gives E S (first.bind next) := by
  cases now with
  | ok holds => exact later _ holds
  | error holds => exact .error holds

theorem map {f : α → β} (now : Gives E R first) (later : ∀ value, R value → S (f value)) :
    Gives E S (first.map f) := by
  cases now with
  | ok holds => exact .ok (later _ holds)
  | error holds => exact .error holds

theorem of_ok {value : α} (gives : Gives E R first) (made : first = .ok value) : R value := by
  subst made
  cases gives with
  | ok holds => exact holds

theorem of_error {fault : ε} (gives : Gives E R first) (failed : first = .error fault) :
    E fault := by
  subst failed
  cases gives with
  | error holds => exact holds

end Gives

/-- Two computations agree if both have a value or both fail, and what they give is related. -/
inductive Agree {δ : Type} (E : ε → δ → Prop) (R : α → β → Prop) :
    Except ε α → Except δ β → Prop
  | ok {value : α} {other : β} (same : R value other) : Agree E R (.ok value) (.ok other)
  | error {fault : ε} {other : δ} (same : E fault other) : Agree E R (.error fault) (.error other)

namespace Agree

variable {δ γ η : Type} {E : ε → δ → Prop} {R : α → β → Prop} {S : γ → η → Prop} {first : Except ε α}
  {second : Except δ β}

theorem bind {f : α → Except ε γ} {g : β → Except δ η} (now : Agree E R first second)
    (later : ∀ value other, first = .ok value → R value other → Agree E S (f value) (g other)) :
    Agree E S (first.bind f) (second.bind g) := by
  cases now with
  | ok same => exact later _ _ rfl same
  | error same => exact .error same

theorem map {f : α → γ} {g : β → η} (now : Agree E R first second)
    (later : ∀ value other, R value other → S (f value) (g other)) :
    Agree E S (first.map f) (second.map g) := by
  cases now with
  | ok same => exact .ok (later _ _ same)
  | error same => exact .error same

theorem bind_map {f : α → Except ε γ} {g : β → η} (now : Agree E R first second)
    (later : ∀ value other, R value other → Agree E S (f value) (.ok (g other))) :
    Agree E S (first.bind f) (second.map g) := by
  cases now with
  | ok same => exact later _ _ same
  | error same => exact .error same

theorem mapError {ζ θ : Type} {F : ζ → θ → Prop} {f : ε → ζ} {g : δ → θ}
    (now : Agree E R first second) (later : ∀ fault other, E fault other → F (f fault) (g other)) :
    Agree F R (first.mapError f) (second.mapError g) := by
  cases now with
  | ok same => exact .ok same
  | error same => exact .error (later _ _ same)

theorem exists_ok {value : α} (agree : Agree E R first second) (made : first = .ok value) :
    ∃ other, second = .ok other ∧ R value other := by
  subst made
  cases agree with
  | ok same => exact ⟨_, rfl, same⟩

theorem exists_error {fault : ε} (agree : Agree E R first second) (failed : first = .error fault) :
    ∃ other, second = .error other ∧ E fault other := by
  subst failed
  cases agree with
  | error same => exact ⟨_, rfl, same⟩

theorem toOption {second : Except δ α} (agree : Agree E Eq first second) :
    first.toOption = second.toOption := by
  cases agree with
  | ok same => exact congrArg some same
  | error => rfl

end Agree

end EightBit
