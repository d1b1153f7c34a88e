import Inlining.Settings.Arguments
import Mathlib.Data.List.Basic
import Mathlib.Data.List.Forall2
import Mathlib.Data.List.TakeWhile

/-!
# The last value given for a setting wins

Assignments are made one after the other, values out of range are let through until the end, and the
first assignment that cannot be read ends it all. What comes out nevertheless depends on two things
only: whether each assignment can be read, which does not depend on the others, and which assignment
to each setting is the last one. The order of assignments to different settings does not matter,
except to the error that is reported.

A change is applied whatever the settings are, so this is a fact about folds. Settings are compared
one by one, through `Settings.value`, and the value of a setting after some changes is that of the
last change that concerns it.

## Main definitions

* `Settings.value` — what a setting is set to
* `Settings.overridden` — the defaults with the last value given for each setting
* `Settings.Spells` — the assignment that an argument spells

## Main results

* `Settings.value_applyAll` — the last change of a setting wins
* `Settings.ofAssignments_eq_ok` — when settings are accepted, and which
* `Settings.last_value_wins` — settings from pairs and from arguments
-/

namespace Inlining

theorem Setting.ofName?_eq_some {name : String} {a : Setting} :
    ofName? name = some a ↔ a.name = name := by
  constructor
  · intro h
    simpa using List.find?_some h
  · rintro rfl
    exact ofName?_name a

namespace Settings

/-- The setting that a change concerns. -/
def Change.setting : Change → Setting
  | fraction _ => .relativeBudgetFraction
  | absoluteBudget _ => .absoluteBudget
  | minimumFrequency _ => .minimumExecutionFrequency
  | recursiveLimit _ => .recursiveCallLimit
  | neverOptimize _ => .disableOptimizerFallback
  | noRecursiveInlining _ => .disableRecursiveInlining

/-- What a setting is set to, given as the change that sets it so. -/
def value (s : Settings) : Setting → Change
  | .relativeBudgetFraction => .fraction s.fraction
  | .absoluteBudget => .absoluteBudget s.absoluteBudget
  | .minimumExecutionFrequency => .minimumFrequency s.minimumFrequency
  | .recursiveCallLimit => .recursiveLimit s.recursiveLimit
  | .disableOptimizerFallback => .neverOptimize s.neverOptimize
  | .disableRecursiveInlining => .noRecursiveInlining s.noRecursiveInlining

/-- The change that the last assignment to a setting spells, if there is one. -/
def lastChange? (assignments : List Assignment) (a : Setting) : Option Change :=
  (assignments.filter fun p => p.1 == a.name).getLast?.bind fun p => (Change.read a p.2).toOption

/-- The defaults, overridden by the last value given for each setting. -/
def overridden (assignments : List Assignment) : Settings :=
  (Setting.all.filterMap (lastChange? assignments)).foldl apply {}

/-! ### The last change wins -/

theorem value_apply (s : Settings) (c : Change) (a : Setting) :
    (s.apply c).value a = if c.setting = a then c else s.value a := by
  cases c <;> cases a <;> rfl

/-- Settings are the same if each of them is set to the same. -/
theorem eq_of_value_eq {s t : Settings} (h : ∀ a, s.value a = t.value a) : s = t := by
  rw [Settings.mk.injEq]
  exact ⟨Change.fraction.inj (h .relativeBudgetFraction),
    Change.absoluteBudget.inj (h .absoluteBudget),
    Change.minimumFrequency.inj (h .minimumExecutionFrequency),
    Change.recursiveLimit.inj (h .recursiveCallLimit),
    Change.neverOptimize.inj (h .disableOptimizerFallback),
    Change.noRecursiveInlining.inj (h .disableRecursiveInlining)⟩

/-- After some changes a setting is set as the last one that concerns it says. -/
theorem value_applyAll (changes : List Change) (s : Settings) (a : Setting) :
    (changes.foldl apply s).value a =
      (changes.filter fun c => c.setting = a).getLast?.getD (s.value a) := by
  induction changes generalizing s with
  | nil => rfl
  | cons c rest ih =>
    rw [List.foldl_cons, ih, value_apply]
    by_cases hc : c.setting = a <;> simp [hc, List.getLast?_cons]

/-! ### Reading an assignment -/

/-- What is read for a setting concerns that setting. -/
theorem Change.setting_of_read {a : Setting} {value : Option String} {c : Change}
    (h : read a value = .ok c) : c.setting = a := by
  have hmap : ∀ {α : Type} {f : α → Change} {x : Except Error α}, f <$> x = .ok c →
      ∃ y, f y = c := by
    intro α f x h
    cases x with
    | error e => cases h
    | ok y => exact ⟨y, Except.ok.inj h⟩
  cases a <;> obtain ⟨y, rfl⟩ := hmap h <;> rfl

theorem Change.ofPair_name (a : Setting) (value : Option String) :
    ofPair a.name value = read a value := by
  rw [ofPair, Setting.ofName?_name]

theorem Change.name_setting_of_ofPair {name : String} {value : Option String} {c : Change}
    (h : ofPair name value = .ok c) : c.setting.name = name := by
  rw [ofPair] at h
  split at h
  · rename_i a ha
    rw [setting_of_read h]
    exact Setting.ofName?_eq_some.mp ha
  · cases h

/-- The change that an assignment spells, if it can be read. -/
def change? (p : Assignment) : Option Change := (Change.ofPair p.1 p.2).toOption

theorem toOption_eq_some {α : Type} {x : Except Error α} {a : α} :
    x.toOption = some a ↔ x = .ok a := by
  cases x <;> simp [Except.toOption]

/-- A change is kept or not by the setting that it concerns. -/
theorem filter_setting {x : Option Change} {a : Setting} {P : Prop} [Decidable P]
    (h : ∀ c, x = some c → (c.setting = a ↔ P)) :
    x.filter (fun c => c.setting = a) = if P then x else none := by
  cases x with
  | none => split <;> rfl
  | some c => simp [Option.filter, h c rfl]

/-- An assignment changes a setting if it gives the setting's name. -/
theorem filter_change? (p : Assignment) (a : Setting) :
    (change? p).filter (fun c => c.setting = a) =
      if p.1 == a.name then (Change.read a p.2).toOption else none := by
  rw [filter_setting (P := p.1 == a.name)]
  · split
    · rename_i hname
      rw [change?, beq_iff_eq.mp hname, Change.ofPair_name]
    · rfl
  · intro c hc
    rw [beq_iff_eq, ← Change.name_setting_of_ofPair (toOption_eq_some.mp hc), eq_comm (b := a.name),
      ← Setting.ofName?_eq_some, Setting.ofName?_name, Option.some_inj]

/-- If all assignments can be read, the last change of a setting among those that they spell is that
of the last assignment to it. -/
theorem getLast?_changes {assignments : List Assignment}
    (hread : ∀ p ∈ assignments, (change? p).isSome) (a : Setting) :
    ((assignments.filterMap change?).filter fun c => c.setting = a).getLast? =
      lastChange? assignments a := by
  have hnamed : ∀ p ∈ (assignments.filter fun p => p.1 == a.name).reverse,
      (Change.read a p.2).toOption.isSome := by
    intro p hp
    obtain ⟨hp, hname⟩ := List.mem_filter.mp (List.mem_reverse.mp hp)
    rw [← Change.ofPair_name, ← beq_iff_eq.mp hname]
    exact hread p hp
  rw [List.filter_filterMap]
  simp only [filter_change?]
  rw [← List.filterMap_filter, List.getLast?_filterMap, lastChange?, List.getLast?_eq_head?_reverse]
  generalize (assignments.filter fun p => p.1 == a.name).reverse = named at hnamed
  cases named with
  | nil => rfl
  | cons p rest =>
    obtain ⟨c, hc⟩ := Option.isSome_iff_exists.mp (hnamed p List.mem_cons_self)
    simp [hc]

theorem value_overridden (assignments : List Assignment) (a : Setting) :
    (overridden assignments).value a =
      (lastChange? assignments a).getD (({} : Settings).value a) := by
  have hfilter : ∀ b, (lastChange? assignments b).filter (fun c => c.setting = a) =
      if b = a then lastChange? assignments a else none := by
    intro b
    rw [filter_setting (P := b = a)]
    · by_cases hb : b = a <;> simp [hb]
    · intro c hc
      obtain ⟨p, -, hread⟩ := Option.bind_eq_some_iff.mp hc
      rw [Change.setting_of_read (toOption_eq_some.mp hread)]
  rw [overridden, value_applyAll, List.filter_filterMap]
  simp only [hfilter]
  cases a <;> cases lastChange? assignments _ <;> rfl

/-! ### All assignments -/

theorem assignAll_cons (s : Settings) (p : Assignment) (rest : List Assignment) :
    assignAll s (p :: rest) = (s.apply <$> Change.ofPair p.1 p.2) >>= (assignAll · rest) :=
  List.foldlM_cons

/-- Assignments are accepted if each can be read, and the changes are applied in order. -/
theorem assignAll_eq_ok {s t : Settings} {assignments : List Assignment} :
    assignAll s assignments = .ok t ↔ (∀ p ∈ assignments, (change? p).isSome) ∧
      t = (assignments.filterMap change?).foldl apply s := by
  induction assignments generalizing s with
  | nil =>
    change Except.ok s = .ok t ↔ _ ∧ t = s
    rw [Except.ok.injEq, eq_comm]
    simp
  | cons p rest ih =>
    rw [assignAll_cons, List.forall_mem_cons]
    cases hp : Change.ofPair p.1 p.2 with
    | error e =>
      have hchange : change? p = none := by rw [change?, hp]; rfl
      rw [hchange]
      exact iff_of_false (by rintro ⟨⟩) (by simp)
    | ok c =>
      have hchange : change? p = some c := toOption_eq_some.mpr hp
      rw [List.filterMap_cons_some hchange, List.foldl_cons, hchange, Option.isSome_some]
      refine ih.trans ?_
      simp

/-- **When settings are accepted, and which.** Each assignment can be read, and the defaults with
the last value given for each setting pass the checks. -/
theorem ofAssignments_eq_ok {s : Settings} {assignments : List Assignment} :
    ofAssignments assignments = .ok s ↔ (∀ p ∈ assignments, (change? p).isSome) ∧
      (overridden assignments).check = .ok () ∧ s = overridden assignments := by
  have hchecked : ∀ t : Settings, (do t.check; return t : Except Error Settings) = .ok s ↔
      t.check = .ok () ∧ s = t := by
    intro t
    cases ht : t.check with
    | error e => exact iff_of_false (by rintro ⟨⟩) (by simp)
    | ok u =>
      change Except.ok t = .ok s ↔ _
      rw [Except.ok.injEq, eq_comm]
      simp
  rw [ofAssignments]
  cases hall : assignAll {} assignments with
  | error e =>
    refine iff_of_false (by rintro ⟨⟩) fun h => ?_
    rw [assignAll_eq_ok.mpr ⟨h.1, rfl⟩] at hall
    cases hall
  | ok t =>
    obtain ⟨hread, ht⟩ := assignAll_eq_ok.mp hall
    have heq : t = overridden assignments := by
      refine eq_of_value_eq fun a => ?_
      rw [ht, value_applyAll, value_overridden, getLast?_changes hread]
    rw [← heq]
    exact (hchecked t).trans (and_iff_right hread).symm

/-- Assignments to different settings may change places. -/
theorem ofAssignments_congr {assignments others : List Assignment} (hperm : others.Perm assignments)
    (horder : ∀ a : Setting, others.filter (fun p => p.1 == a.name) =
      assignments.filter fun p => p.1 == a.name) (s : Settings) :
    ofAssignments others = .ok s ↔ ofAssignments assignments = .ok s := by
  have hlast : lastChange? others = lastChange? assignments := by
    funext a
    rw [lastChange?, lastChange?, horder]
  rw [ofAssignments_eq_ok, ofAssignments_eq_ok, overridden, overridden, hlast]
  simp only [hperm.mem_iff]

/-! ### One assignment after the other -/

theorem assign_of_ok {name : String} {value : Option String} {c : Change}
    (h : Change.ofPair name value = .ok c) (s : Settings) :
    assign name value s = .ok () (s.apply c) := by
  rw [assign, h]
  rfl

theorem assign_of_error {name : String} {value : Option String} {e : Error}
    (h : Change.ofPair name value = .error e) (s : Settings) :
    assign name value s = .error e s := by
  rw [assign, h]
  rfl

theorem exists_assign_iff (p : Assignment) (s : Settings) :
    (∃ t, assign p.1 p.2 s = .ok () t) ↔ (change? p).isSome := by
  rw [change?]
  cases h : Change.ofPair p.1 p.2 with
  | ok c => exact iff_of_true ⟨_, assign_of_ok h s⟩ rfl
  | error e =>
    rw [assign_of_error h]
    exact iff_of_false (by rintro ⟨_, ⟨⟩⟩) (by rintro ⟨⟩)

/-- All assignments are made one by one. -/
theorem assignAll_eq_exec (s : Settings) (assignments : List Assignment) :
    assignAll s assignments = (assignments.forM fun p => assign p.1 p.2).exec s := by
  induction assignments generalizing s with
  | nil => rfl
  | cons p rest ih =>
    rw [assignAll_cons, Update.exec, List.forM, Update.bind_apply]
    cases h : Change.ofPair p.1 p.2 with
    | ok c =>
      rw [assign_of_ok h]
      exact ih (s.apply c)
    | error e =>
      rw [assign_of_error h]
      rfl

/-! ### Arguments -/

/-- The argument has one leading pair of hyphens before the rest, or it has none and is the rest. -/
def Unhyphened (argument rest : List Char) : Prop :=
  argument = '-' :: '-' :: rest ∨ ¬ ['-', '-'] <+: argument ∧ rest = argument

/-- The assignment that an argument spells: the first equals sign, after a leading pair of hyphens,
stands between name and value; where there is none, there is no value. -/
inductive Spells (argument : String) : Assignment → Prop where
  | value {name value : List Char} : Unhyphened argument.toList (name ++ '=' :: value) →
      '=' ∉ name → Spells argument
        (String.ofList (Text.trim name), some (String.ofList (Text.trim value)))
  | bare {name : List Char} : Unhyphened argument.toList name → '=' ∉ name →
      Spells argument (String.ofList (Text.trim name), none)

theorem unhyphened_iff {argument rest : List Char} :
    Unhyphened argument rest ↔ stripHyphens argument = rest := by
  rw [Unhyphened]
  unfold stripHyphens
  split
  · simp
  · rename_i hnone
    have hnot : ¬ ['-', '-'] <+: argument := fun ⟨cs, hcs⟩ => hnone cs hcs.symm
    constructor
    · rintro (rfl | ⟨-, rfl⟩)
      · exact absurd rfl (hnone rest)
      · rfl
    · rintro rfl
      exact .inr ⟨hnot, rfl⟩

theorem exists_spells (argument : String) : ∃ p, Spells argument p := by
  have hrest := unhyphened_iff.mpr (Eq.refl (stripHyphens argument.toList))
  by_cases hmem : '=' ∈ stripHyphens argument.toList
  · obtain ⟨name, value, heq, hname⟩ := List.eq_append_cons_of_mem hmem
    rw [heq] at hrest
    exact ⟨_, .value hrest hname⟩
  · exact ⟨_, .bare hrest hmem⟩

theorem Spells.eq_ofArgument {argument : String} {p : Assignment} (h : Spells argument p) :
    p = Assignment.ofArgument argument := by
  have hne : ∀ {name : List Char}, '=' ∉ name → ∀ c ∈ name, (c != '=') = true := by
    intro name hname c hc
    rw [bne_iff_ne]
    rintro rfl
    exact hname hc
  cases h with
  | value hrest hname =>
    rw [Assignment.ofArgument, unhyphened_iff.mp hrest,
      List.takeWhile_append_of_pos (hne hname), List.dropWhile_append_of_pos (hne hname)]
    simp
  | bare hrest hname =>
    rw [Assignment.ofArgument, unhyphened_iff.mp hrest,
      List.takeWhile_eq_self_iff.mpr (hne hname), List.dropWhile_eq_nil_iff.mpr (hne hname)]

/-- **The last value given for a setting wins, and order does not matter otherwise.** Settings from
names and values are accepted if and only if each pair is accepted by itself and the defaults,
overridden by the last value given for each setting, pass the checks; these are then the settings.
Each of them is set to what the last pair with its name spells, or to its default if there is none.
So pairs may change places as long as those that name the same setting keep their order. An
assignment that is refused changes nothing. Settings from arguments are what the assignments that
the arguments spell make of the defaults, one after the other, if it passes the checks. -/
theorem last_value_wins :
    (∀ (pairs : List (String × String)) (s : Settings), ofPairs pairs = .ok s ↔
      (∀ p ∈ pairs, ∃ t, assign p.1 (some p.2) {} = .ok () t) ∧
      (overridden (pairs.map fun p => (p.1, some p.2))).check = .ok () ∧
      s = overridden (pairs.map fun p => (p.1, some p.2))) ∧
    (∀ (pairs : List (String × String)) (s : Settings), ofPairs pairs = .ok s → ∀ a : Setting,
      s.value a = (lastChange? (pairs.map fun p => (p.1, some p.2)) a).getD
        (({} : Settings).value a)) ∧
    (∀ pairs others : List (String × String), others.Perm pairs →
      (∀ a : Setting, others.filter (fun p => p.1 == a.name) =
        pairs.filter fun p => p.1 == a.name) →
      ∀ s, ofPairs others = .ok s ↔ ofPairs pairs = .ok s) ∧
    (∀ (name : String) (value : Option String) (s t : Settings) (e : Error),
      assign name value s = .error e t → t = s) ∧
    (∀ argument : String, ∃ p, Spells argument p) ∧
    ∀ (arguments : List String) (assignments : List Assignment),
      List.Forall₂ Spells arguments assignments →
      ofArguments arguments = do
        let s ← (assignments.forM fun p => assign p.1 p.2).exec {}
        s.check
        return s := by
  refine ⟨fun pairs s => ?_, fun pairs s h a => ?_, fun pairs others hperm horder s => ?_,
    fun name value s t e h => ?_, exists_spells, fun arguments assignments h => ?_⟩
  · rw [ofPairs, ofAssignments_eq_ok, List.forall_mem_map]
    simp only [← exists_assign_iff _ {}]
  · obtain ⟨-, -, rfl⟩ := ofAssignments_eq_ok.mp h
    exact value_overridden _ a
  · refine ofAssignments_congr (hperm.map _) (fun a => ?_) s
    rw [List.filter_map, List.filter_map]
    exact congrArg _ (horder a)
  · cases hread : Change.ofPair name value with
    | ok c =>
      rw [assign_of_ok hread] at h
      cases h
    | error _ =>
      rw [assign_of_error hread] at h
      cases h
      rfl
  · have heq : assignments = arguments.map Assignment.ofArgument := by
      induction h with
      | nil => rfl
      | cons hspells _ ih => rw [List.map_cons, ← ih, hspells.eq_ofArgument]
    rw [ofArguments, ← heq, ofAssignments, assignAll_eq_exec]

/-- A cap out of range that is lifted later, and a flag in between. The flag may come first, but the
cap may not be lifted first. -/
def capLifted : List (String × String) :=
  [("absolute-budget", "-1"), ("disable-recursive-inlining", "YES"), ("absolute-budget", "None")]

theorem last_value_wins_capLifted : ∃ s : Settings,
    s.absoluteBudget = none ∧ s.noRecursiveInlining = true ∧ ofPairs capLifted = .ok s ∧
    ofPairs [("disable-recursive-inlining", "YES"), ("absolute-budget", "-1"),
      ("absolute-budget", "None")] = .ok s ∧
    (∀ t, ofPairs capLifted.reverse ≠ .ok t) ∧
    ofArguments ["--absolute-budget = 7"] = do
      let s ← ([("absolute-budget", some "7")].forM fun p => assign p.1 p.2).exec {}
      s.check
      return s := by
  obtain ⟨haccepted, hvalue, horder, -, hspells, harguments⟩ := last_value_wins
  have hchecked : ∀ x : Except Error Unit, x.toBool = true ↔ x = .ok () := by
    intro x
    cases x <;> simp [Except.toBool]
  have hok : ofPairs capLifted = .ok (overridden (capLifted.map fun p => (p.1, some p.2))) := by
    refine (haccepted capLifted _).mpr ⟨?_, (hchecked _).mp (by decide +kernel), rfl⟩
    simp only [exists_assign_iff (_, _)]
    decide
  have hcap := hvalue capLifted _ hok .absoluteBudget
  have hflag := hvalue capLifted _ hok .disableRecursiveInlining
  refine ⟨_, Change.absoluteBudget.inj (hcap.trans (by rfl)),
    Change.noRecursiveInlining.inj (hflag.trans (by rfl)), hok, ?_, fun t ht => ?_, ?_⟩
  · exact (horder capLifted _ (by decide) (fun a => by cases a <;> decide) _).mpr hok
  · have hcheck := ((haccepted _ t).mp ht).2.1
    rw [← hchecked] at hcheck
    exact absurd hcheck (by decide +kernel)
  · obtain ⟨p, hp⟩ := hspells "--absolute-budget = 7"
    obtain rfl : p = ("absolute-budget", some "7") := hp.eq_ofArgument.trans (by decide)
    exact harguments _ _ (.cons hp .nil)

end Settings

end Inlining
