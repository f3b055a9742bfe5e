import Mathlib.Data.List.Basic

/-!
# Walking through a table by its keys

The entries of a table are listed in the order of the walk. The caller names the key that it has seen last, and gets
what comes behind.

* `after`: what follows a key;
* **`after_append`**, **`after_next`**: a walk that always names the key it got last sees every entry in its turn.
-/

namespace Traversal

variable {K V : Type} [DecidableEq K]

/-- What follows `key`; `nil` stands before the first entry, and a key that is not there is an error. -/
def after (nil key : K) (entries : List (K × V)) : Option (List (K × V)) :=
  if key = nil then some entries
  else
    match entries.dropWhile fun e => e.1 ≠ key with
    | [] => none
    | _ :: rest => some rest

theorem after_nil (nil : K) (entries : List (K × V)) : after nil nil entries = some entries := if_pos rfl

theorem after_append {nil : K} {pre entries : List (K × V)} {e : K × V} (hnil : e.1 ≠ nil)
    (hpre : ∀ p ∈ pre, p.1 ≠ e.1) : after nil e.1 (pre ++ e :: entries) = some entries := by
  have hdrop : (pre ++ e :: entries).dropWhile (fun p => decide (p.1 ≠ e.1)) = e :: entries := by
    rw [List.dropWhile_append_of_pos fun p hp => decide_eq_true (hpre p hp),
      List.dropWhile_cons_of_neg (by rw [decide_eq_true_eq]; exact fun h => h rfl)]
  rw [after, if_neg hnil, hdrop]

theorem after_next {nil key : K} {all entries : List (K × V)} {e : K × V} (hnodup : (all.map Prod.fst).Nodup)
    (hnil : ∀ p ∈ all, p.1 ≠ nil) (h : after nil key all = some (e :: entries)) : after nil e.1 all = some entries := by
  have hsplit : ∃ pre, all = pre ++ e :: entries := by
    unfold after at h
    split_ifs at h with hkey
    · exact ⟨[], Option.some.inj h⟩
    · split at h
      · cases h
      · rename_i found rest hdrop
        cases h
        refine ⟨all.takeWhile (fun p => decide (p.1 ≠ key)) ++ [found], ?_⟩
        rw [List.append_assoc, List.singleton_append, ← hdrop, List.takeWhile_append_dropWhile]
  obtain ⟨pre, rfl⟩ := hsplit
  refine after_append (hnil e (List.mem_append_right pre List.mem_cons_self)) fun p hp heq => ?_
  rw [List.map_append, List.nodup_append] at hnodup
  exact hnodup.2.2 p.1 (List.mem_map_of_mem hp) e.1 (List.mem_map_of_mem List.mem_cons_self) heq

end Traversal
