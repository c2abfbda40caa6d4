import Mathlib.Data.List.Forall2
import Mathlib.Order.MinMax
import Anyonic.Compile.Error
import Anyonic.Gate

/-!
# Numbers, lists and computations that may fail

A computation that may fail is taken apart by what it takes to succeed.  Of a failure that is left,
all that later modules say is whether it blames the request.
-/

namespace Anyonic

theorem wrappingSucc_of_lt {number : ℕ} (small : number + 1 < wrapLimit) :
    wrappingSucc number = number + 1 :=
  if_pos small

/-- Only zero is the next number of two others. -/
theorem wrappingSucc_eq_add_one_iff {number previous : ℕ} :
    wrappingSucc number = previous + 1 ↔ number = previous ∧ number + 1 < wrapLimit := by
  unfold wrappingSucc
  split <;> omega

theorem foldl_max_le_iff {values : List ℕ} {start bound : ℕ} :
    values.foldl max start ≤ bound ↔ start ≤ bound ∧ ∀ value ∈ values, value ≤ bound := by
  induction values generalizing start with
  | nil => simp
  | cons value values ih =>
      rw [List.foldl_cons, ih, List.forall_mem_cons, Nat.max_le, and_assoc]

/-- Either all items of a list have a property, or there is a first that has not. -/
theorem forall_or_exists_first {β : Type} (property : β → Prop) (items : List β) :
    (∀ item ∈ items, property item) ∨ ∃ before item after, items = before ++ item :: after ∧
      (∀ earlier ∈ before, property earlier) ∧ ¬property item := by
  induction items with
  | nil => simp
  | cons first rest ih =>
      by_cases holds : property first
      · rcases ih with all | ⟨before, item, after, rfl, earlier, fails⟩
        · exact .inl (List.forall_mem_cons.2 ⟨holds, all⟩)
        · exact .inr ⟨first :: before, item, after, rfl, List.forall_mem_cons.2 ⟨holds, earlier⟩,
            fails⟩
      · exact .inr ⟨[], first, rest, rfl, by simp, holds⟩

theorem bind_eq_ok_iff {ε β γ : Type} {first : Except ε β} {next : β → Except ε γ} {result : γ} :
    (first >>= next) = .ok result ↔ ∃ value, first = .ok value ∧ next value = .ok result := by
  cases first with
  | error error => simp [bind, Except.bind]
  | ok value => simp [bind, Except.bind]

theorem map_eq_ok_iff {ε β γ : Type} {first : Except ε β} {function : β → γ} {result : γ} :
    first.map function = .ok result ↔ ∃ value, first = .ok value ∧ function value = result := by
  cases first <;> simp [Except.map]

theorem mapM_eq_ok_iff {ε β γ : Type} {function : β → Except ε γ} {values : List β}
    {results : List γ} :
    values.mapM function = .ok results ↔
      List.Forall₂ (fun value result => function value = .ok result) values results := by
  induction values generalizing results with
  | nil => cases results <;> simp [pure, Except.pure]
  | cons value values ih =>
      rw [List.mapM_cons, bind_eq_ok_iff, List.forall₂_cons_left_iff]
      constructor
      · rintro ⟨result, head, tail⟩
        rcases bind_eq_ok_iff.1 tail with ⟨rest, rest_eq, same⟩
        cases same
        exact ⟨result, rest, head, ih.1 rest_eq, rfl⟩
      · rintro ⟨result, rest, head, tail, rfl⟩
        refine ⟨result, head, ?_⟩
        rw [ih.2 tail]
        rfl

theorem exists_mapM_eq_ok_iff {ε β γ : Type} {function : β → Except ε γ} {values : List β} :
    (∃ results, values.mapM function = .ok results) ↔
      ∀ value ∈ values, ∃ result, function value = .ok result := by
  induction values with
  | nil => simp [pure, Except.pure]
  | cons value values ih =>
      rw [List.forall_mem_cons, ← ih, List.mapM_cons]
      simp [bind_eq_ok_iff, pure, Except.pure]

theorem exists_of_forall₂_of_mem {β γ : Type} {relation : β → γ → Prop} {values : List β}
    {results : List γ} (related : List.Forall₂ relation values results) {result : γ}
    (listed : result ∈ results) : ∃ value, relation value result := by
  induction related with
  | nil => cases listed
  | cons head _ ih =>
      rcases List.mem_cons.1 listed with rfl | listed
      · exact ⟨_, head⟩
      · exact ih listed

theorem CompileError.ofCircuit_eq_ok_iff {α β : Type} {checked : Except CircuitError β}
    {value : β} :
    (ofCircuit checked : Except (CompileError α) β) = .ok value ↔ checked = .ok value := by
  cases checked <;> simp [ofCircuit]

variable {α β γ : Type}

/-- A failure that blames the request, and not an instruction or a step of the compiler. -/
def CompileError.IsRefusal : CompileError α → Prop
  | .circuit _ | .exactMappingUnavailable _ | .loweringDiverged _ => False
  | _ => True

/-- A request is refused, or met by a result with a property. -/
def Settles (result : Except (CompileError α) β) (good : β → Prop) : Prop :=
  match result with
  | .error error => error.IsRefusal
  | .ok value => good value

namespace Settles

variable {result : Except (CompileError α) β} {good : β → Prop}

theorem isRefusal (settles : Settles result good) {error : CompileError α}
    (failed : result = .error error) : error.IsRefusal := by
  subst failed
  exact settles

theorem of_eq_ok (settles : Settles result good) {value : β} (met : result = .ok value) :
    good value := by
  subst met
  exact settles

theorem mono (settles : Settles result good) {better : β → Prop}
    (implied : ∀ value, good value → better value) : Settles result better := by
  cases result with
  | error error => exact settles
  | ok value => exact implied value settles

theorem bind (settles : Settles result good) {next : β → Except (CompileError α) γ}
    {best : γ → Prop}
    (further : ∀ value, result = .ok value → good value → Settles (next value) best) :
    Settles (result >>= next) best := by
  cases result with
  | error error => exact settles
  | ok value => exact further value rfl settles

theorem mapM {function : β → Except (CompileError α) γ} {values : List β}
    (settles : ∀ value ∈ values, Settles (function value) fun _ => True) :
    Settles (values.mapM function) fun _ => True := by
  induction values with
  | nil => trivial
  | cons value values ih =>
      rw [List.mapM_cons]
      apply (settles value List.mem_cons_self).bind
      intro head _ _
      apply (ih fun other listed => settles other (List.mem_cons_of_mem _ listed)).bind
      intro rest _ _
      trivial

end Settles

end Anyonic
