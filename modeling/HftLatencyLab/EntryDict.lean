import Mathlib.Data.Finmap

/-! A dictionary filled entry by entry, a later entry in place of an earlier one with the
same key: what it holds is told by the list of entries. -/

namespace HftLatencyLab.EntryDict

variable {κ α : Type*} [DecidableEq κ]

def ofEntries (entries : List (κ × α)) : Finmap fun _ : κ => α :=
  entries.foldl (fun dict entry => dict.insert entry.1 entry.2) ∅

theorem ofEntries_concat (entries : List (κ × α)) (entry : κ × α) :
    ofEntries (entries ++ [entry]) = (ofEntries entries).insert entry.1 entry.2 := by
  simp [ofEntries]

theorem lookup_concat (entries : List (κ × α)) (entry : κ × α) (k : κ) :
    (ofEntries (entries ++ [entry])).lookup k =
      if k = entry.1 then some entry.2 else (ofEntries entries).lookup k := by
  rw [ofEntries_concat]
  by_cases same : k = entry.1
  · rw [if_pos same, same, Finmap.lookup_insert]
  · rw [if_neg same, Finmap.lookup_insert_of_ne _ same]

theorem mem_of_lookup {entries : List (κ × α)} {k : κ} {v : α}
    (found : (ofEntries entries).lookup k = some v) : (k, v) ∈ entries := by
  induction entries using List.reverseRecOn with
  | nil => simp [ofEntries] at found
  | append_singleton entries entry ih =>
    rw [lookup_concat] at found
    split_ifs at found with same
    · obtain rfl : entry.2 = v := Option.some.inj found
      simp [same]
    · exact List.mem_append_left _ (ih found)

theorem lookup_of_mem {entries : List (κ × α)} {k : κ} {v : α} (mem : (k, v) ∈ entries)
    (unique : ∀ w, (k, w) ∈ entries → w = v) : (ofEntries entries).lookup k = some v := by
  have found : ((ofEntries entries).lookup k).isSome := by
    clear unique
    induction entries using List.reverseRecOn with
    | nil => simp at mem
    | append_singleton entries entry ih =>
      rw [lookup_concat]
      split_ifs with same
      · rfl
      · refine ih ((List.mem_append.mp mem).resolve_right fun last => same ?_)
        rw [List.mem_singleton] at last
        rw [← last]
  obtain ⟨w, held⟩ := Option.isSome_iff_exists.mp found
  rw [held, unique w (mem_of_lookup held)]

theorem lookup_iff {entries : List (κ × α)} (distinct : (entries.map Prod.fst).Nodup) (k : κ)
    (v : α) : (ofEntries entries).lookup k = some v ↔ (k, v) ∈ entries := by
  refine ⟨mem_of_lookup, fun mem => lookup_of_mem mem fun w mem' => ?_⟩
  have same := List.inj_on_of_nodup_map distinct mem' mem rfl
  exact congrArg Prod.snd same

end HftLatencyLab.EntryDict
