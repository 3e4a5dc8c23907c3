namespace ReplyCache

universe u v

variable {α : Type u} {β : Type v}

namespace Members

def get? (name : String) : List (String × α) → Option α
  | [] => none
  | (n, a) :: rest => if n = name then some a else get? name rest

def insert (name : String) (value : α) : List (String × α) → List (String × α)
  | [] => [(name, value)]
  | (n, a) :: rest =>
    if n = name then (name, value) :: rest
    else if name < n then (name, value) :: (n, a) :: rest
    else (n, a) :: insert name value rest

def erase (name : String) (members : List (String × α)) : List (String × α) :=
  members.filter fun e => e.1 ≠ name

/-- The members in order of their names; of two with one name the later stays. -/
def ofList (members : List (String × α)) : List (String × α) :=
  members.foldl (fun m e => insert e.1 e.2 m) []

def Sorted (members : List (String × α)) : Prop :=
  members.Pairwise (fun a b => a.1 < b.1)

instance (members : List (String × α)) : Decidable (Sorted members) :=
  inferInstanceAs (Decidable (List.Pairwise _ _))

theorem lt_of_not_lt {a b : String} (h : ¬ a < b) (hne : b ≠ a) : b < a :=
  Std.lt_of_le_of_ne (String.not_lt.1 h) hne

@[simp] theorem get?_insert_self (name : String) (value : α) (m : List (String × α)) :
    get? name (insert name value m) = some value := by
  induction m with
  | nil => simp [insert, get?]
  | cons e rest ih =>
    simp only [insert]
    split
    · simp [get?]
    · split
      · simp [get?]
      · simp_all [get?]

theorem get?_insert_of_ne {name other : String} (h : other ≠ name) (value : α)
    (m : List (String × α)) : get? other (insert name value m) = get? other m := by
  induction m with
  | nil => simp [insert, get?, Ne.symm h]
  | cons e rest ih =>
    simp only [insert]
    split
    · rename_i he
      simp [get?, he, Ne.symm h]
    · split <;> simp_all [get?, Ne.symm h]

theorem mem_insert {name : String} {value : α} {m : List (String × α)} {e : String × α}
    (h : e ∈ insert name value m) : e = (name, value) ∨ e ∈ m := by
  induction m with
  | nil => simpa [insert] using h
  | cons d rest ih =>
    simp only [insert] at h
    split at h
    · rcases List.mem_cons.1 h with h | h <;> simp [h]
    · split at h
      · simpa using h
      · rcases List.mem_cons.1 h with h | h
        · simp [h]
        · rcases ih h with h | h <;> simp [h]

theorem sorted_insert (name : String) (value : α) {m : List (String × α)} (h : Sorted m) :
    Sorted (insert name value m) := by
  induction m with
  | nil => simp [insert, Sorted]
  | cons e rest ih =>
    obtain ⟨n, a⟩ := e
    obtain ⟨hlt, hrest⟩ := List.pairwise_cons.1 h
    simp only [insert]
    split
    · rename_i he
      exact List.pairwise_cons.2 ⟨fun d hd => he ▸ hlt d hd, hrest⟩
    · rename_i he
      split
      · rename_i hn
        refine List.pairwise_cons.2 ⟨fun d hd => ?_, h⟩
        rcases List.mem_cons.1 hd with hd | hd
        · simpa [hd] using hn
        · exact String.lt_trans hn (hlt d hd)
      · rename_i hn
        refine List.pairwise_cons.2 ⟨fun d hd => ?_, ih hrest⟩
        rcases mem_insert hd with hd | hd
        · simpa [hd] using lt_of_not_lt hn he
        · exact hlt d hd

theorem sorted_erase (name : String) {m : List (String × α)} (h : Sorted m) :
    Sorted (erase name m) := List.Pairwise.filter _ h

theorem sorted_foldl_insert (l : List (String × α)) {m : List (String × α)} (h : Sorted m) :
    Sorted (l.foldl (fun m e => insert e.1 e.2 m) m) := by
  induction l generalizing m with
  | nil => exact h
  | cons e rest ih => exact ih (sorted_insert e.1 e.2 h)

theorem sorted_ofList (l : List (String × α)) : Sorted (ofList l) :=
  sorted_foldl_insert l List.Pairwise.nil

theorem lt_of_get?_cons {e : String × α} {m : List (String × α)} (h : Sorted (e :: m))
    {name : String} {a : α} (hg : get? name m = some a) : e.1 < name := by
  induction m generalizing e with
  | nil => simp [get?] at hg
  | cons d rest ih =>
    obtain ⟨hlt, hrest⟩ := List.pairwise_cons.1 h
    have hd := hlt d (by simp)
    by_cases hn : d.1 = name
    · exact hn ▸ hd
    · exact String.lt_trans hd (ih hrest (by simpa [get?, hn] using hg))

theorem get?_eq_none_of_lt {m : List (String × α)} {name : String}
    (h : ∀ e ∈ m, name < e.1) : get? name m = none := by
  induction m with
  | nil => rfl
  | cons d rest ih =>
    have hd : d.1 ≠ name := fun he => String.lt_irrefl name (he ▸ h d (by simp))
    simp [get?, hd, ih fun e he => h e (by simp [he])]

theorem get?_erase_of_ne {name other : String} (h : other ≠ name) (m : List (String × α)) :
    get? other (erase name m) = get? other m := by
  simp only [erase]
  induction m with
  | nil => rfl
  | cons e rest ih =>
    by_cases he : e.1 = name
    · rw [List.filter_cons_of_neg (by simp [he]), ih]
      simp [get?, he, Ne.symm h]
    · rw [List.filter_cons_of_pos (by simp [he]), get?, ih, get?]

theorem get?_erase_self (name : String) (m : List (String × α)) :
    get? name (erase name m) = none := by
  simp only [erase]
  induction m with
  | nil => rfl
  | cons e rest ih =>
    by_cases he : e.1 = name
    · rw [List.filter_cons_of_neg (by simp [he]), ih]
    · rw [List.filter_cons_of_pos (by simp [he]), get?, ih, if_neg he]

theorem eq_of_get?_eq {m m' : List (String × α)} (h : Sorted m) (h' : Sorted m')
    (hg : ∀ name, get? name m = get? name m') : m = m' := by
  induction m generalizing m' with
  | nil =>
    cases m' with
    | nil => rfl
    | cons e rest => simpa [get?] using hg e.1
  | cons d rest ih =>
    cases m' with
    | nil => simpa [get?] using hg d.1
    | cons e rest' =>
      obtain ⟨hlt, hrest⟩ := List.pairwise_cons.1 h
      obtain ⟨hlt', hrest'⟩ := List.pairwise_cons.1 h'
      have hde : d.1 = e.1 := by
        have hd : get? d.1 (e :: rest') = some d.2 := by simpa [get?] using (hg d.1).symm
        have he : get? e.1 (d :: rest) = some e.2 := by simpa [get?] using hg e.1
        by_cases hn : e.1 = d.1
        · exact hn.symm
        · have h1 := lt_of_get?_cons h' (by simpa [get?, hn] using hd)
          have h2 := lt_of_get?_cons h (by simpa [get?, Ne.symm hn] using he)
          exact (String.lt_irrefl _ (String.lt_trans h1 h2)).elim
      have hval : d.2 = e.2 := by simpa [get?, hde] using hg d.1
      have htail : rest = rest' := by
        refine ih hrest hrest' fun name => ?_
        by_cases hn : d.1 = name
        · subst hn
          rw [get?_eq_none_of_lt hlt, get?_eq_none_of_lt fun c hc => hde ▸ hlt' c hc]
        · simpa [get?, hn, hde ▸ hn] using hg name
      rw [Prod.ext hde hval, htail]

end Members

/-- Being in strictly increasing order of its names pins the list down: two maps that answer every
lookup alike are equal (`SortedMap.ext_get?`). -/
structure SortedMap (α : Type u) where
  entries : List (String × α)
  sorted : Members.Sorted entries
  deriving DecidableEq

namespace SortedMap

def empty : SortedMap α := ⟨[], List.Pairwise.nil⟩

instance : EmptyCollection (SortedMap α) := ⟨empty⟩

instance : Inhabited (SortedMap α) := ⟨empty⟩

def get? (m : SortedMap α) (name : String) : Option α := Members.get? name m.entries

def insert (m : SortedMap α) (name : String) (value : α) : SortedMap α :=
  ⟨Members.insert name value m.entries, Members.sorted_insert name value m.sorted⟩

def erase (m : SortedMap α) (name : String) : SortedMap α :=
  ⟨Members.erase name m.entries, Members.sorted_erase name m.sorted⟩

def ofList (members : List (String × α)) : SortedMap α :=
  ⟨Members.ofList members, Members.sorted_ofList members⟩

def names (m : SortedMap α) : List String := m.entries.map (·.1)

def contains (m : SortedMap α) (name : String) : Bool := (m.get? name).isSome

@[simp] theorem get?_insert_self (m : SortedMap α) (name : String) (value : α) :
    (m.insert name value).get? name = some value := Members.get?_insert_self name value m.entries

theorem get?_insert_of_ne (m : SortedMap α) {name other : String} (h : other ≠ name) (value : α) :
    (m.insert name value).get? other = m.get? other :=
  Members.get?_insert_of_ne h value m.entries

theorem get?_erase_of_ne (m : SortedMap α) {name other : String} (h : other ≠ name) :
    (m.erase name).get? other = m.get? other := Members.get?_erase_of_ne h m.entries

@[simp] theorem get?_erase_self (m : SortedMap α) (name : String) :
    (m.erase name).get? name = none := Members.get?_erase_self name m.entries

theorem ext_get? {m m' : SortedMap α} (h : ∀ name, m.get? name = m'.get? name) : m = m' := by
  obtain ⟨entries, sorted⟩ := m
  obtain ⟨entries', sorted'⟩ := m'
  obtain rfl : entries = entries' := Members.eq_of_get?_eq sorted sorted' h
  rfl

theorem erase_insert_self (m : SortedMap α) (name : String) (value : α) :
    (m.insert name value).erase name = m.erase name := by
  apply ext_get?
  intro other
  by_cases hother : other = name
  · rw [hother, get?_erase_self, get?_erase_self]
  · rw [get?_erase_of_ne _ hother, get?_erase_of_ne _ hother, get?_insert_of_ne _ hother]

end SortedMap

end ReplyCache
