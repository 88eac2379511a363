import Mathlib.Data.List.Infix
import Mathlib.Data.List.Nodup

/-!
Queues in which the latest entry of a key wins. An entry takes the place of the
queued one with its key or goes to the end, so the queue holds for each key what
was last put in since it was emptied.
-/

set_option autoImplicit false

namespace Latest

open List

variable {α κ : Type} [DecidableEq κ] (key : α → κ)

def upsert (x : α) : List α → List α
  | [] => [x]
  | y :: ys => if key y = key x then x :: ys else y :: upsert x ys

def latest (log : List α) (k : κ) : Option α :=
  log.foldl (fun acc x => if key x = k then some x else acc) none

/-- The queue holds the latest entry of every key that was put in after `old`. -/
structure Queued (old log queue : List α) : Prop where
  nodup : (queue.map key).Nodup
  entry : ∀ x ∈ queue, latest key log (key x) = some x
  other : ∀ k ∉ queue.map key, latest key log k = latest key old k

@[simp] theorem latest_nil (k : κ) : latest key [] k = none := rfl

theorem latest_concat (log : List α) (x : α) (k : κ) :
    latest key (log ++ [x]) k = if key x = k then some x else latest key log k := by
  simp [latest]

@[simp] theorem latest_concat_self (log : List α) (x : α) :
    latest key (log ++ [x]) (key x) = some x := by
  simp [latest_concat]

theorem latest_append_of_notMem {log more : List α} {k : κ} (h : ∀ x ∈ more, key x ≠ k) :
    latest key (log ++ more) k = latest key log k := by
  induction more using reverseRecOn with
  | nil => simp
  | append_singleton more x ih =>
    rw [← append_assoc,latest_concat,if_neg (h x (by simp)),
      ih fun y hy => h y (mem_append_left _ hy)]

theorem latest_append_isSome {log more : List α} {k : κ} (h : (latest key log k).isSome) :
    (latest key (log ++ more) k).isSome := by
  induction more using reverseRecOn with
  | nil => simpa using h
  | append_singleton more x ih =>
    rw [← append_assoc,latest_concat]
    split
    · rfl
    · exact ih

theorem keys_upsert (x : α) (queue : List α) : (upsert key x queue).map key =
      if key x ∈ queue.map key then queue.map key else queue.map key ++ [key x] := by
  induction queue with
  | nil => simp [upsert]
  | cons y ys ih =>
    by_cases hy : key y = key x
    · simp [upsert,hy]
    · have hx : key x ≠ key y := fun h => hy h.symm
      simp only [upsert,if_neg hy,map_cons,ih,mem_cons,hx,false_or]
      split <;> simp

theorem nodup_upsert (x : α) {queue : List α} (h : (queue.map key).Nodup) :
    ((upsert key x queue).map key).Nodup := by
  rw [keys_upsert]
  split
  · exact h
  rename_i hx
  exact nodup_append.mpr ⟨h,nodup_singleton _,by
    intro a ha b hb
    rw [mem_singleton.mp hb]
    exact fun hab => hx (hab ▸ ha)⟩

theorem mem_upsert {x y : α} {queue : List α} (hn : (queue.map key).Nodup)
    (h : y ∈ upsert key x queue) : y = x ∨ y ∈ queue ∧ key y ≠ key x := by
  induction queue with
  | nil => exact .inl (mem_singleton.mp h)
  | cons z zs ih =>
    rw [map_cons,nodup_cons] at hn
    by_cases hz : key z = key x
    · rw [upsert,if_pos hz] at h
      rcases mem_cons.mp h with rfl | hy
      · exact .inl rfl
      · refine .inr ⟨mem_cons_of_mem _ hy,fun hyx => hn.1 ?_⟩
        rw [hz,← hyx]
        exact mem_map_of_mem hy
    · rw [upsert,if_neg hz] at h
      rcases mem_cons.mp h with rfl | hy
      · exact .inr ⟨mem_cons_self,hz⟩
      · rcases ih hn.2 hy with hyx | ⟨hy,hne⟩
        · exact .inl hyx
        · exact .inr ⟨mem_cons_of_mem _ hy,hne⟩

theorem Queued.empty (log : List α) : Queued key log log [] :=
  ⟨nodup_nil,by simp,fun _ _ => rfl⟩

theorem Queued.upsert {old log queue : List α} (h : Queued key old log queue) (x : α) :
    Queued key old (log ++ [x]) (upsert key x queue) where
  nodup := nodup_upsert key x h.nodup
  entry y hy := by
    rcases mem_upsert key h.nodup hy with rfl | ⟨hy,hne⟩
    · exact latest_concat_self key log y
    · rw [latest_concat,if_neg hne.symm,h.entry y hy]
  other k hk := by
    have hx : key x ≠ k ∧ k ∉ queue.map key := by
      rw [keys_upsert] at hk
      split at hk
      · rename_i hmem
        exact ⟨fun hxk => hk (hxk ▸ hmem),hk⟩
      · simp only [mem_append,mem_singleton,not_or] at hk
        exact ⟨fun hxk => hk.2 hxk.symm,hk.1⟩
    rw [latest_concat,if_neg hx.1,h.other k hx.2]

end Latest
