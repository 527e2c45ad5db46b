import WorkloadReplay.Conversion

/-!
# Interning texts

The id of a text is its place among the different texts so far, so a text keeps its id as more texts
are added.
-/

namespace WorkloadReplay.Conversion

def idOf (texts : Array String) (sql : String) : UInt32 :=
  UInt32.ofNat ((texts.idxOf? sql).getD texts.size)

def withText (texts : Array String) (sql : String) : Array String :=
  if (texts.idxOf? sql).isSome then texts else texts.push sql

/-- The interner gives the id of a text by its map, and keeps the texts in order by its array. -/
theorem intern_spec (i : Interner) (sql : String) :
    (i.intern sql).1.texts = withText i.texts sql ∧ (i.intern sql).2 = idOf i.texts sql := by
  have hids := i.lookup_ids sql
  unfold Interner.intern withText idOf
  split
  · rename_i id h
    rw [h] at hids
    obtain ⟨index, hindex, rfl⟩ := Option.map_eq_some_iff.mp hids.symm
    simp [hindex]
  · rename_i h
    rw [h] at hids
    rw [Option.map_eq_none_iff.mp hids.symm]
    exact ⟨rfl, rfl⟩

theorem intern_eq (c : Conversion) (sql : String) :
    c.intern sql =
      ({ c with interner := (c.interner.intern sql).1 }, idOf c.texts sql) := by
  rw [intern, ← (intern_spec c.interner sql).2]

@[simp] theorem texts_intern (i : Interner) (sql : String) :
    (i.intern sql).1.texts = withText i.texts sql := (intern_spec i sql).1

theorem getElem?_of_idxOf? {texts : Array String} {sql : String} {index : Nat}
    (h : texts.idxOf? sql = some index) : texts[index]? = some sql := by
  obtain ⟨l⟩ := texts
  rw [List.idxOf?_toArray] at h
  rw [List.getElem?_toArray]
  unfold List.idxOf? at h
  obtain ⟨hlt, heq, -⟩ := List.findIdx?_eq_some_iff_getElem.mp h
  rw [List.getElem?_eq_getElem hlt]
  simpa using heq

theorem getElem?_place (texts : Array String) (sql : String) :
    (withText texts sql)[(texts.idxOf? sql).getD texts.size]? = some sql := by
  unfold withText
  cases h : texts.idxOf? sql with
  | none => simp
  | some index => exact getElem?_of_idxOf? h

theorem place_lt (texts : Array String) (sql : String) :
    (texts.idxOf? sql).getD texts.size < (withText texts sql).size :=
  (Array.getElem?_eq_some_iff.mp (getElem?_place texts sql)).1

theorem idOf_lt (texts : Array String) (sql : String) :
    (idOf texts sql).toNat < (withText texts sql).size := by
  have hlt := place_lt texts sql
  have hle : (idOf texts sql).toNat ≤ (texts.idxOf? sql).getD texts.size := by
    rw [idOf, UInt32.toNat_ofNat']
    exact Nat.mod_le _ _
  omega

/-- The id of a text is its place, if there are not too many. -/
theorem getElem?_idOf {texts : Array String} {sql : String}
    (hsize : (withText texts sql).size ≤ UInt32.size) :
    (withText texts sql)[(idOf texts sql).toNat]? = some sql := by
  have hlt := place_lt texts sql
  rw [idOf, UInt32.toNat_ofNat_of_lt' (Nat.lt_of_lt_of_le hlt hsize)]
  exact getElem?_place texts sql

theorem prefix_withText (texts : Array String) (sql : String) :
    texts.toList <+: (withText texts sql).toList := by
  unfold withText
  split
  · exact List.prefix_rfl
  · simp

theorem nodup_withText {texts : Array String} (h : texts.toList.Nodup) (sql : String) :
    (withText texts sql).toList.Nodup := by
  unfold withText
  split
  · exact h
  · rename_i hnew
    rw [Array.isSome_idxOf?] at hnew
    rw [Array.toList_push, List.nodup_append]
    refine ⟨h, by simp, ?_⟩
    intro s hs s' hs' heq
    rw [List.mem_singleton] at hs'
    subst heq hs'
    exact hnew (Array.mem_toList_iff.mp hs)

theorem mem_withText {texts : Array String} {sql s : String}
    (h : s ∈ (withText texts sql).toList) : s ∈ texts.toList ∨ s = sql := by
  unfold withText at h
  split at h
  · exact .inl h
  · simpa using h

theorem mem_withText_self (texts : Array String) (sql : String) :
    sql ∈ (withText texts sql).toList := by
  obtain ⟨hlt, hsql⟩ := Array.getElem?_eq_some_iff.mp (getElem?_place texts sql)
  exact Array.mem_toList_iff.mpr (Array.mem_of_getElem hsql)

theorem subset_withText {texts more : Array String} (h : texts.toList ⊆ more.toList)
    (sql : String) : (withText texts sql).toList ⊆ (withText more sql).toList := by
  intro s hs
  rcases mem_withText hs with hs | rfl
  · exact (prefix_withText more sql).subset (h hs)
  · exact mem_withText_self more s

def Names (texts : Array String) (id : UInt32) (sql : String) : Prop :=
  ∃ index, texts[index]? = some sql ∧ UInt32.ofNat index = id

section

variable {texts more : Array String} {id : UInt32} {sql : String}

theorem names_iff_mem_entries {c : Conversion} :
    Names c.texts id sql ↔ ⟨id, sql⟩ ∈ c.entries := by
  rw [entries, List.mem_map]
  constructor
  · rintro ⟨index, hindex, rfl⟩
    exact ⟨(sql, index), List.mem_zipIdx_iff_getElem?.mpr (by simpa using hindex), rfl⟩
  · rintro ⟨⟨text, index⟩, hmem, hentry⟩
    obtain ⟨rfl, rfl⟩ := Trace.Entry.mk.inj hentry
    exact ⟨index, by simpa using List.mem_zipIdx_iff_getElem?.mp hmem, rfl⟩

theorem names_idOf (texts : Array String) (sql : String) :
    Names (withText texts sql) (idOf texts sql) sql := ⟨_, getElem?_place texts sql, rfl⟩

theorem Names.mono (h : Names texts id sql) (hgrows : texts.toList <+: more.toList) :
    Names more id sql := by
  obtain ⟨index, hindex, hid⟩ := h
  obtain ⟨added, hadded⟩ := hgrows
  refine ⟨index, ?_, hid⟩
  rw [← Array.getElem?_toList] at hindex ⊢
  rw [← hadded, List.getElem?_append_left (List.getElem?_eq_some_iff.mp hindex).1, hindex]

/-- Where there are not too many texts, an id stands for one text. -/
theorem Names.getElem? (h : Names texts id sql) (hsize : texts.size ≤ UInt32.size) :
    texts[id.toNat]? = some sql := by
  obtain ⟨index, hindex, rfl⟩ := h
  have hlt := (Array.getElem?_eq_some_iff.mp hindex).1
  rwa [UInt32.toNat_ofNat_of_lt' (Nat.lt_of_lt_of_le hlt hsize)]

end

end WorkloadReplay.Conversion
