import Mathlib.Data.Finset.Card
import Mathlib.Data.List.AList
/-!
# FiniteMap — retaining and counting the entries of an association list

A hash map whose iteration order nothing depends on is an `AList`: a list of key-value pairs with distinct keys.
Mathlib has its lookup, insertion and erasure; this adds `retain`, which keeps the entries a predicate accepts, `size`,
the number of entries, with how each operation changes it, `mapKeys`, which replaces each key by its image, `relabel`,
which replaces keys and values under an embedding of the keys, and `keyset`, the keys as a finite set.
-/
namespace AList

variable {α β : Type}

def size (s : AList fun _ : α => β) : Nat := s.entries.length

def retain (p : α → β → Bool) (s : AList fun _ : α => β) : AList fun _ : α => β :=
  ⟨s.entries.filter (fun e => p e.1 e.2), s.nodupKeys.sublist List.filter_sublist⟩

@[simp] theorem size_empty : (∅ : AList fun _ : α => β).size = 0 := rfl

theorem size_eq_length_keys (s : AList fun _ : α => β) : s.size = s.keys.length := by
  simp [size, keys, List.keys]

theorem size_retain_le (p : α → β → Bool) (s : AList fun _ : α => β) : (s.retain p).size ≤ s.size :=
  List.length_filter_le _ _

/-- The entries with each key replaced by its image, inserted one after another. -/
def mapKeys {γ : Type} [DecidableEq γ] (f : α → γ) (s : AList fun _ : α => β) : AList fun _ : γ => β :=
  (s.entries.map fun e => (f e.1, e.2)).foldl (fun s e => s.insert e.1 e.2) ∅

section
variable {γ δ : Type}

/-- The entries under other keys, with other values. -/
def relabel (e : α ↪ γ) (g : β → δ) (s : AList fun _ : α => β) : AList fun _ : γ => δ where
  entries   := s.entries.map fun x => ⟨e x.1, g x.2⟩
  nodupKeys := by
    have hkeys : (s.entries.map fun x => (⟨e x.1, g x.2⟩ : Sigma fun _ : γ => δ)).keys = s.entries.keys.map e := by
      rw [List.keys, List.keys, List.map_map, List.map_map]
      rfl
    rw [List.NodupKeys, hkeys]
    exact s.nodupKeys.map e.injective

variable {e : α ↪ γ} {g : β → δ}

@[simp] theorem size_relabel (s : AList fun _ : α => β) : (s.relabel e g).size = s.size := List.length_map _

theorem relabel_retain {p : α → β → Bool} {q : γ → δ → Bool} (h : ∀ a b, q (e a) (g b) = p a b)
    (s : AList fun _ : α => β) : (s.relabel e g).retain q = (s.retain p).relabel e g := by
  apply AList.ext
  show (s.entries.map _).filter _ = (s.entries.filter _).map _
  rw [List.filter_map]
  congr 2
  funext x
  exact h x.1 x.2

theorem relabel_eq_self {e : α ↪ α} {s : AList fun _ : α => β} (h : ∀ a ∈ s, e a = a) : s.relabel e id = s := by
  apply AList.ext
  refine (List.map_congr_left fun x hx => ?_).trans (List.map_id _)
  have hx1 : x.1 ∈ s := List.mem_keys_of_mem hx
  rw [h x.1 hx1]
  rfl

end

variable [DecidableEq α]

theorem mem_of_lookup {a : α} {b : β} {s : AList fun _ : α => β} (h : s.lookup a = some b) : a ∈ s :=
  lookup_isSome.1 (by rw [h]; rfl)

theorem mem_entries_iff {a : α} {b : β} {s : AList fun _ : α => β} : ⟨a, b⟩ ∈ s.entries ↔ s.lookup a = some b :=
  mem_lookup_iff.symm

theorem lookup_retain (p : α → β → Bool) (s : AList fun _ : α => β) (a : α) :
    (s.retain p).lookup a = (s.lookup a).filter (p a) := by
  apply Option.ext
  intro b
  rw [← mem_entries_iff, retain, List.mem_filter, mem_entries_iff, Option.filter_eq_some_iff]

theorem lookup_insert_eq (a a' : α) (b : β) (s : AList fun _ : α => β) :
    (s.insert a' b).lookup a = if a' = a then some b else s.lookup a := by
  by_cases h : a' = a
  · subst h; rw [if_pos rfl, lookup_insert]
  · rw [if_neg h, lookup_insert_ne (Ne.symm h)]

theorem lookup_erase_eq (a a' : α) (s : AList fun _ : α => β) :
    (s.erase a').lookup a = if a' = a then none else s.lookup a := by
  by_cases h : a' = a
  · subst h; rw [if_pos rfl, lookup_erase]
  · rw [if_neg h, lookup_erase_ne (Ne.symm h)]

theorem size_insert_of_notMem {a : α} {b : β} {s : AList fun _ : α => β} (h : a ∉ s) :
    (s.insert a b).size = s.size + 1 := by
  rw [size, entries_insert_of_notMem h, List.length_cons, size]

theorem size_insert_of_mem {a : α} {b : β} {s : AList fun _ : α => β} (h : a ∈ s) :
    (s.insert a b).size = s.size := by
  have hk := mem_keys.1 h
  have hpos := List.length_pos_of_mem hk
  rw [size_eq_length_keys, keys_insert, List.length_cons, List.length_erase_of_mem hk, size_eq_length_keys]
  omega

theorem size_erase_of_mem {a : α} {s : AList fun _ : α => β} (h : a ∈ s) : (s.erase a).size + 1 = s.size := by
  have hk := mem_keys.1 h
  have hpos := List.length_pos_of_mem hk
  rw [size_eq_length_keys, keys_erase, List.length_erase_of_mem hk, size_eq_length_keys]
  omega

theorem size_erase_of_notMem {a : α} {s : AList fun _ : α => β} (h : a ∉ s) : (s.erase a).size = s.size := by
  rw [size_eq_length_keys, keys_erase, List.erase_of_not_mem (mt mem_keys.2 h), size_eq_length_keys]

theorem lookup_foldl_insert {a : α} {b : β} : ∀ (l : List (α × β)) (s : AList fun _ : α => β),
    (l.foldl (fun s e => s.insert e.1 e.2) s).lookup a = some b → s.lookup a = some b ∨ (a, b) ∈ l
  | [], _, h     => Or.inl h
  | e :: l, s, h => by
    rcases lookup_foldl_insert l _ h with h | h
    · rw [lookup_insert_eq] at h
      split at h
      · rename_i he
        cases h
        exact Or.inr (by rw [← he]; exact List.mem_cons_self)
      · exact Or.inl h
    · exact Or.inr (List.mem_cons_of_mem e h)

theorem lookup_foldl_insert_of_notMem {a : α} : ∀ (l : List (α × β)) (s : AList fun _ : α => β),
    a ∉ l.map Prod.fst → (l.foldl (fun s e => s.insert e.1 e.2) s).lookup a = s.lookup a
  | [], _, _     => rfl
  | e :: l, s, h => by
    rw [List.map_cons, List.mem_cons, not_or] at h
    rw [List.foldl_cons, lookup_foldl_insert_of_notMem l _ h.2, lookup_insert_eq, if_neg (Ne.symm h.1)]

theorem lookup_foldl_insert_of_mem {a : α} {b : β} : ∀ (l : List (α × β)) (s : AList fun _ : α => β),
    (l.map Prod.fst).Nodup → (a, b) ∈ l → (l.foldl (fun s e => s.insert e.1 e.2) s).lookup a = some b
  | e :: l, s, hnd, h => by
    rw [List.map_cons, List.nodup_cons] at hnd
    rw [List.foldl_cons]
    rcases List.mem_cons.1 h with rfl | h
    · rw [lookup_foldl_insert_of_notMem l _ hnd.1, lookup_insert]
    · exact lookup_foldl_insert_of_mem l _ hnd.2 h

variable {γ : Type} [DecidableEq γ] {f : α → γ}

/-- **Under an injection no entry is lost and no two are merged.** -/
theorem lookup_mapKeys (hf : Function.Injective f) (s : AList fun _ : α => β) (a : α) :
    (s.mapKeys f).lookup (f a) = s.lookup a := by
  have hkeys : (s.entries.map fun e => (f e.1, e.2)).map Prod.fst = s.keys.map f := by
    rw [List.map_map, keys, List.keys, List.map_map]
    rfl
  have hnd : ((s.entries.map fun e => (f e.1, e.2)).map Prod.fst).Nodup := by
    rw [hkeys]
    exact s.keys_nodup.map hf
  cases h : s.lookup a with
  | some b =>
    apply lookup_foldl_insert_of_mem _ _ hnd
    exact List.mem_map.2 ⟨⟨a, b⟩, mem_entries_iff.2 h, rfl⟩
  | none =>
    apply lookup_foldl_insert_of_notMem
    rw [hkeys, List.mem_map_of_injective hf]
    exact lookup_eq_none.1 h

omit [DecidableEq α] in
theorem lookup_mapKeys_of_notMem {c : γ} (hc : ∀ a, f a ≠ c) (s : AList fun _ : α => β) :
    (s.mapKeys f).lookup c = none := by
  apply lookup_foldl_insert_of_notMem
  rw [List.map_map, List.mem_map]
  rintro ⟨e, _, he⟩
  exact hc e.1 he

def keyset (s : AList fun _ : α => β) : Finset α := s.keys.toFinset

theorem mem_keyset {a : α} {s : AList fun _ : α => β} : a ∈ s.keyset ↔ ∃ b, s.lookup a = some b := by
  rw [keyset, List.mem_toFinset, ← Option.isSome_iff_exists, lookup_isSome, mem_keys]

theorem mem_keyset_iff {a : α} {s : AList fun _ : α => β} : a ∈ s.keyset ↔ a ∈ s := by
  rw [keyset, List.mem_toFinset, mem_keys]

theorem card_keyset (s : AList fun _ : α => β) : s.keyset.card = s.size := by
  rw [keyset, List.toFinset_card_of_nodup s.keys_nodup, size_eq_length_keys]

/-! ## Other labels -/

section
variable {δ : Type} {e : α ↪ γ} {g : β → δ}

theorem lookup_relabel (s : AList fun _ : α => β) (a : α) : (s.relabel e g).lookup (e a) = (s.lookup a).map g := by
  apply Option.ext
  intro d
  rw [← mem_entries_iff, Option.map_eq_some_iff]
  show _ ∈ s.entries.map _ ↔ _
  rw [List.mem_map]
  constructor
  · rintro ⟨⟨a', b⟩, hmem, heq⟩
    obtain ⟨ha, hd⟩ := Sigma.mk.inj heq
    obtain rfl : a' = a := e.injective ha
    exact ⟨b, mem_entries_iff.1 hmem, eq_of_heq hd⟩
  · rintro ⟨b, hb, rfl⟩
    exact ⟨⟨a, b⟩, mem_entries_iff.2 hb, rfl⟩

theorem lookup_relabel_id (s : AList fun _ : α => β) (a : α) : (s.relabel e id).lookup (e a) = s.lookup a := by
  rw [lookup_relabel, Option.map_id]
  rfl

theorem mem_relabel {s : AList fun _ : α => β} {a : α} : e a ∈ s.relabel e g ↔ a ∈ s := by
  rw [← lookup_isSome, ← lookup_isSome, lookup_relabel, Option.isSome_map]

theorem kerase_relabel (a : α) : ∀ l : List (Sigma fun _ : α => β),
    (l.map fun x => (⟨e x.1, g x.2⟩ : Sigma fun _ : γ => δ)).kerase (e a) =
      (l.kerase a).map fun x => ⟨e x.1, g x.2⟩
  | []     => rfl
  | x :: l => by
    rw [List.map_cons]
    by_cases h : a = x.1
    · rw [List.kerase_cons_eq h, List.kerase_cons_eq (congrArg e h)]
    · rw [List.kerase_cons_ne h, List.kerase_cons_ne (fun he => h (e.injective he)), List.map_cons, kerase_relabel a l]

theorem relabel_erase (a : α) (s : AList fun _ : α => β) : (s.relabel e g).erase (e a) = (s.erase a).relabel e g :=
  AList.ext (kerase_relabel a s.entries)

theorem relabel_insert (a : α) (b : β) (s : AList fun _ : α => β) :
    (s.relabel e g).insert (e a) (g b) = (s.insert a b).relabel e g := by
  apply AList.ext
  exact congrArg (List.cons _) (kerase_relabel a s.entries)

end

end AList
