import Mathlib.Data.List.Nodup

structure KeyedTable (α κ : Type) (key : α → κ) where
  rows : List α
  unique : (rows.map key).Nodup

namespace KeyedTable

variable {α κ : Type} {key : α → κ}

def empty : KeyedTable α κ key := ⟨[], by simp⟩

theorem nodup_filter_map (t : KeyedTable α κ key) (p : α → Bool) :
    ((t.rows.filter p).map key).Nodup :=
  t.unique.sublist (List.filter_sublist.map key)

def erase (t : KeyedTable α κ key) (p : α → Bool) : KeyedTable α κ key :=
  ⟨t.rows.filter (fun a => !p a), t.nodup_filter_map _⟩

theorem eq_of_key {t : KeyedTable α κ key} {a b : α} (ha : a ∈ t.rows) (hb : b ∈ t.rows)
    (h : key a = key b) : a = b :=
  List.inj_on_of_nodup_map t.unique ha hb h

@[simp] theorem mem_empty (a : α) : a ∈ (empty : KeyedTable α κ key).rows ↔ False := by
  simp [empty]

@[simp] theorem mem_erase {t : KeyedTable α κ key} {p : α → Bool} {a : α} :
    a ∈ (t.erase p).rows ↔ a ∈ t.rows ∧ p a = false := by
  simp [erase]

variable [DecidableEq κ]

def find (t : KeyedTable α κ key) (k : κ) : Option α := t.rows.find? (fun a => key a = k)

def emplace (t : KeyedTable α κ key) (a : α) : KeyedTable α κ key :=
  if h : key a ∈ t.rows.map key then t
  else ⟨a :: t.rows, by simpa [List.nodup_cons] using ⟨by simpa using h, t.unique⟩⟩

def modify (t : KeyedTable α κ key) (k : κ) (f : α → α) (hf : ∀ a, key (f a) = key a) :
    KeyedTable α κ key :=
  ⟨t.rows.map (fun a => if key a = k then f a else a), by
    have hk : key ∘ (fun a => if key a = k then f a else a) = key := by
      funext a
      by_cases h : key a = k <;> simp [h, hf]
    simpa [List.map_map, hk] using t.unique⟩

theorem find_eq_some {t : KeyedTable α κ key} {k : κ} {a : α} :
    t.find k = some a ↔ a ∈ t.rows ∧ key a = k := by
  constructor
  · intro h
    exact ⟨List.mem_of_find?_eq_some h, by simpa using List.find?_some h⟩
  · rintro ⟨ha, rfl⟩
    cases hf : t.find (key a) with
    | none => simp [find, List.find?_eq_none] at hf; exact absurd rfl (hf a ha)
    | some b =>
      have hb : key b = key a := by simpa using List.find?_some hf
      rw [eq_of_key (List.mem_of_find?_eq_some hf) ha hb]

theorem find_eq_none {t : KeyedTable α κ key} {k : κ} :
    t.find k = none ↔ ∀ a ∈ t.rows, key a ≠ k := by
  simp [find, List.find?_eq_none]

theorem find_congr {t u : KeyedTable α κ key} {k : κ}
    (h : ∀ a, key a = k → (a ∈ t.rows ↔ a ∈ u.rows)) : t.find k = u.find k := by
  ext a
  rw [find_eq_some, find_eq_some]
  exact ⟨fun ha => ⟨(h a ha.2).mp ha.1, ha.2⟩, fun ha => ⟨(h a ha.2).mpr ha.1, ha.2⟩⟩

theorem mem_emplace {t : KeyedTable α κ key} {a b : α} (h : ∀ c ∈ t.rows, key c ≠ key a) :
    b ∈ (t.emplace a).rows ↔ b = a ∨ b ∈ t.rows := by
  have hn : key a ∉ t.rows.map key := by simpa using h
  simp [emplace, hn]

theorem emplace_of_mem {t : KeyedTable α κ key} {a c : α} (hc : c ∈ t.rows)
    (h : key c = key a) : t.emplace a = t := by
  have hm : key a ∈ t.rows.map key := List.mem_map.mpr ⟨c, hc, h⟩
  simp [emplace, hm]

theorem mem_modify {t : KeyedTable α κ key} {k : κ} {f : α → α}
    {hf : ∀ a, key (f a) = key a} {b : α} :
    b ∈ (t.modify k f hf).rows ↔
      (b ∈ t.rows ∧ key b ≠ k) ∨ ∃ a ∈ t.rows, key a = k ∧ f a = b := by
  simp only [modify, List.mem_map]
  constructor
  · rintro ⟨a, ha, rfl⟩
    by_cases h : key a = k
    · exact .inr ⟨a, ha, h, by simp [h]⟩
    · exact .inl (by simp [h, ha])
  · rintro (⟨hb, h⟩ | ⟨a, ha, h, rfl⟩)
    · exact ⟨b, hb, by simp [h]⟩
    · exact ⟨a, ha, by simp [h]⟩

end KeyedTable
