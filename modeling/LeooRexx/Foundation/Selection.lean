import Mathlib

/-!
# Selection

A scan keeps its first item and replaces it by every later one that beats it: one with a greater
key, unless the scan misses the difference of the two.  It finds the greatest key in whatever
order the items come exactly when no difference from an item with the greatest key is missed.
-/

namespace Selection

section

variable {α β : Type*} [LinearOrder β] (key : α → β) (misses : α → α → Prop)
  [DecidableRel misses]

def Beats (new old : α) : Prop := key old < key new ∧ ¬misses new old

instance : DecidableRel (Beats key misses) := fun new old => by
  unfold Beats
  infer_instance

def select (found : α) : List α → α
  | [] => found
  | x :: xs => select (if Beats key misses x found then x else found) xs

variable {key misses}

theorem select_mem (found : α) (xs : List α) : select key misses found xs ∈ found :: xs := by
  induction xs generalizing found with
  | nil => simp [select]
  | cons x xs ih =>
      have hmem := ih (if Beats key misses x found then x else found)
      rw [select]
      split at hmem
      · case isTrue hbeats => exact List.mem_cons_of_mem _ (by rwa [if_pos hbeats])
      · case isFalse hkeep =>
        rw [if_neg hkeep]
        rcases List.mem_cons.mp hmem with heq | hlater
        · rw [heq]
          exact List.mem_cons_self
        · exact List.mem_cons_of_mem _ (List.mem_cons_of_mem _ hlater)

theorem select_append (found : α) (xs ys : List α) :
    select key misses found (xs ++ ys) = select key misses (select key misses found xs) ys := by
  induction xs generalizing found with
  | nil => rfl
  | cons x xs ih => exact ih _

theorem select_eq_self {found : α} {xs : List α} (h : ∀ x ∈ xs, ¬Beats key misses x found) :
    select key misses found xs = found := by
  induction xs with
  | nil => rfl
  | cons x xs ih =>
      rw [select, if_neg (h x List.mem_cons_self)]
      exact ih fun y hy => h y (List.mem_cons_of_mem x hy)

theorem select_eq_top {found : α} {xs : List α} {top : β}
    (hle : ∀ y ∈ found :: xs, key y ≤ top)
    (hseen : ∀ m ∈ found :: xs, key m = top → ∀ y ∈ found :: xs, key y < top → ¬misses m y)
    (htop : ∃ m ∈ found :: xs, key m = top) : key (select key misses found xs) = top := by
  induction xs generalizing found with
  | nil =>
      obtain ⟨m, hm, hkey⟩ := htop
      rwa [List.mem_singleton.mp hm] at hkey
  | cons x xs ih =>
      have hx : x ∈ found :: x :: xs := by simp
      have hfound : found ∈ found :: x :: xs := by simp
      have hrest {y : α} (hy : y ∈ xs) : y ∈ found :: x :: xs := by simp [hy]
      have hsub : ∀ y ∈ (if Beats key misses x found then x else found) :: xs,
          y ∈ found :: x :: xs := by
        intro y hy
        rcases List.mem_cons.mp hy with rfl | hy
        · split
          · exact hx
          · exact hfound
        · exact hrest hy
      rw [select]
      refine ih (fun y hy => hle y (hsub y hy))
        (fun m hm hkey y hy => hseen m (hsub m hm) hkey y (hsub y hy)) ?_
      obtain ⟨m, hm, hkey⟩ := htop
      rcases lt_or_eq_of_le (hle found hfound) with hlt | heq
      · rcases List.mem_cons.mp hm with rfl | hm
        · exact absurd hkey (ne_of_lt hlt)
        · rcases List.mem_cons.mp hm with rfl | hm
          · have hbeats : Beats key misses m found :=
              ⟨hkey ▸ hlt, hseen m hx hkey found hfound hlt⟩
            exact ⟨m, by simp [hbeats], hkey⟩
          · exact ⟨m, List.mem_cons_of_mem _ hm, hkey⟩
      · have hkeep : ¬Beats key misses x found := fun hbeats =>
          absurd (heq ▸ hbeats.1) (hle x hx).not_gt
        exact ⟨found, by simp [hkeep], heq⟩

theorem exists_perm_select_lt {items : List α} {x m : α} (hx : x ∈ items)
    (hlt : key x < key m) (hle : ∀ y ∈ items, key y ≤ key m)
    (hmisses : ∀ m' ∈ items, key m' = key m → misses m' x) :
    ∃ found xs, (found :: xs).Perm items ∧ key (select key misses found xs) < key m := by
  obtain ⟨front, back, rfl⟩ := List.append_of_mem hx
  have hperm : (x :: (front ++ back)).Perm (front ++ x :: back) := List.perm_middle.symm
  have hmem {y : α} (hy : y ∈ front ++ back) : y ∈ front ++ x :: back :=
    hperm.subset (List.mem_cons_of_mem x hy)
  have hsplit := List.filter_append_perm (fun y => decide (key y = key m)) (front ++ back)
  refine ⟨x, _, (hsplit.cons x).trans hperm, ?_⟩
  have hkeep : select key misses x ((front ++ back).filter fun y => decide (key y = key m)) = x :=
    select_eq_self fun y hy hbeats => by
      obtain ⟨hy, hkey⟩ := List.mem_filter.mp hy
      exact hbeats.2 (hmisses y (hmem hy) (of_decide_eq_true hkey))
  have hlast (ys : List α) : select key misses x ys ∈ x :: ys := select_mem x ys
  rw [select_append, hkeep]
  rcases List.mem_cons.mp (hlast _) with heq | hother
  · rwa [heq]
  · obtain ⟨hother, hkey⟩ := List.mem_filter.mp hother
    exact lt_of_le_of_ne (hle _ (hmem hother)) (by simpa using hkey)

end

end Selection
