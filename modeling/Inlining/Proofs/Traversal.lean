import Inlining.Update
import Std.Data.ExtTreeMap

/-!
# Going through a list

Three ways to go through a list: insert its entries into a table, apply a function that may fail to
each member, and take a step for each member. Laws for each say what has come out in the end.
-/

namespace Inlining

/-- After inserting the entries of a list, a key has the value of an entry with that key, or, if
there is none, the value that it had before. -/
theorem getElem?_foldl_insert {α κ β : Type} [Ord κ] [Std.TransOrd κ] [Std.LawfulEqOrd κ]
    (key : α → κ) (value : α → β) (entries : List α) (table : Std.ExtTreeMap κ β) (k : κ) :
    (∃ a ∈ entries, key a = k ∧
      (entries.foldl (fun t a => t.insert (key a) (value a)) table)[k]? = some (value a)) ∨
    ((∀ a ∈ entries, key a ≠ k) ∧
      (entries.foldl (fun t a => t.insert (key a) (value a)) table)[k]? = table[k]?) := by
  induction entries generalizing table with
  | nil => simp
  | cons a rest ih =>
    rw [List.foldl_cons]
    rcases ih (table.insert (key a) (value a)) with ⟨b, hb, hkey, hvalue⟩ | ⟨hkey, hvalue⟩
    · exact .inl ⟨b, List.mem_cons_of_mem a hb, hkey, hvalue⟩
    · rw [hvalue, Std.ExtTreeMap.getElem?_insert]
      by_cases ha : key a = k
      · exact .inl ⟨a, List.mem_cons_self, ha, by simp [ha]⟩
      · refine .inr ⟨?_, by simp [ha]⟩
        intro b hb
        rcases List.mem_cons.mp hb with rfl | hb
        · exact ha
        · exact hkey b hb

/-- A function that may fail, applied to the members of a list: either it succeeds on all of them,
or the whole fails as it does on one of them. -/
theorem mapM_cases {ε α β : Type} {f : α → Except ε β} {g : α → β} (as : List α)
    (hg : ∀ a ∈ as, ∀ b, f a = .ok b → b = g a) :
    ((∀ a ∈ as, f a = .ok (g a)) ∧ as.mapM f = .ok (as.map g)) ∨
      ∃ a ∈ as, ∃ e, f a = .error e ∧ as.mapM f = .error e := by
  induction as with
  | nil => exact .inl ⟨by simp, rfl⟩
  | cons a rest ih =>
    rw [List.mapM_cons]
    cases ha : f a with
    | error e => exact .inr ⟨a, List.mem_cons_self, e, ha, rfl⟩
    | ok b =>
      obtain rfl := hg a List.mem_cons_self b ha
      rcases ih fun c hc => hg c (List.mem_cons_of_mem a hc) with
        ⟨hall, hrest⟩ | ⟨c, hc, e, he, hrest⟩
      · refine .inl ⟨fun c hc => ?_, by rw [hrest]; rfl⟩
        rcases List.mem_cons.mp hc with rfl | hc
        · exact ha
        · exact hall c hc
      · exact .inr ⟨c, List.mem_cons_of_mem a hc, e, he, by rw [hrest]; rfl⟩

/-- Steps for the members of a list, one after the other: if each of them keeps an invariant of the
members dealt with, or else fails in a known way, then so does the whole. -/
theorem forM_cases {α σ : Type} {step : α → Update σ Unit} (Inv : List α → σ → Prop)
    {Bad : Error → Prop} {as : List α} {s : σ} (start : Inv [] s)
    (next : ∀ done a s, done ++ [a] <+: as → Inv done s →
      (∃ t, step a s = .ok () t ∧ Inv (done ++ [a]) t) ∨ ∃ e t, step a s = .error e t ∧ Bad e) :
    (∃ t, as.forM step s = .ok () t ∧ Inv as t) ∨ ∃ e t, as.forM step s = .error e t ∧ Bad e := by
  suffices h : ∀ rest done s, done ++ rest = as → Inv done s →
      (∃ t, rest.forM step s = .ok () t ∧ Inv as t) ∨
        ∃ e t, rest.forM step s = .error e t ∧ Bad e from h as [] s rfl start
  intro rest
  induction rest with
  | nil =>
    rintro done s rfl hdone
    exact .inl ⟨s, rfl, by simpa using hdone⟩
  | cons a rest ih =>
    intro done s has hdone
    have has' : (done ++ [a]) ++ rest = as := by simpa using has
    rw [List.forM, Update.bind_apply]
    rcases next done a s ⟨rest, has'⟩ hdone with ⟨t, hstep, ht⟩ | ⟨e, t, hstep, he⟩
    · rw [hstep]
      exact ih (done ++ [a]) t has' ht
    · rw [hstep]
      exact .inr ⟨e, t, rfl, he⟩

/-- Steps that cannot fail as long as an invariant holds, and that keep it, come to a fold. -/
theorem forM_eq_foldl {α σ : Type} {step : α → Update σ Unit} {next : σ → α → σ} (Inv : σ → Prop)
    (hstep : ∀ a s, Inv s → step a s = .ok () (next s a) ∧ Inv (next s a)) (as : List α) {s : σ}
    (start : Inv s) : as.forM step s = .ok () (as.foldl next s) ∧ Inv (as.foldl next s) := by
  induction as generalizing s with
  | nil => exact ⟨rfl, start⟩
  | cons a rest ih =>
    obtain ⟨hok, hnext⟩ := hstep a s start
    rw [List.forM, Update.bind_apply, hok]
    exact ih hnext

end Inlining
