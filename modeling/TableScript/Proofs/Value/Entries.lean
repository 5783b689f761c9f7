import Mathlib.Data.List.Basic
import Mathlib.Data.List.Forall2
import TableScript.Dictionary

/-!
# The entries of a dictionary

A dictionary is a list of pairs in strictly ascending order of their keys (`Ascending`), and putting a value
into it keeps it so (`Ascending.place`).  Keys that compare as equal need not be the same, so there are two
questions to ask at a key: which value is there (`find?`), and in which spelling the key is there
(`spelling?`).  A key keeps the spelling in which it came first (`Ascending.spelling?_place`).

A list in ascending order is known from less than all of it:

* from its members (`Ascending.ext`), so that sorting them brings it back, in whatever order they were
  (`Ascending.mergeSort_eq`);
* from the answers to the two questions at each key (`Ascending.mem_iff`);
* from the values alone up to the spelling of the keys (`Ascending.forall₂_of_find?_eq`).

So a dictionary is known from the values that were put into it.  It is in ascending order, it has the last
value that was put at a key (`find?_ofWrites`), and the key in its first spelling (`spelling?_ofWrites`).
-/

namespace TableScript.Dictionary

variable {κ α : Type} [Ord κ]

/-- The keys of a list of pairs are in strictly ascending order. -/
def Ascending (l : List (κ × α)) : Prop := l.Pairwise fun p q => compare p.1 q.1 = .lt

/-- The pair at a key in a list of pairs. -/
def pair? (k : κ) (l : List (κ × α)) : Option (κ × α) := l.find? fun p => compare k p.1 == .eq

/-- The spelling of a key in a list of pairs. -/
def spelling? (k : κ) (l : List (κ × α)) : Option κ := (pair? k l).map Prod.fst

theorem find?_eq_pair? (k : κ) (l : List (κ × α)) : find? k l = (pair? k l).map Prod.snd := by
  induction l with
  | nil => rfl
  | cons entry rest ih =>
    obtain ⟨k', v⟩ := entry
    rcases hk : compare k k' with - | - | -
    · simp [find?, pair?, hk, ih]
    · simp [find?, pair?, hk]
    · simp [find?, pair?, hk, ih]

theorem pair?_cons_of_eq {k k' : κ} {v : α} {rest : List (κ × α)} (h : compare k k' = .eq) :
    pair? k ((k', v) :: rest) = some (k', v) :=
  List.find?_cons_of_pos (by simp [h])

theorem pair?_cons_of_ne {k k' : κ} {v : α} {rest : List (κ × α)} (h : compare k k' ≠ .eq) :
    pair? k ((k', v) :: rest) = pair? k rest :=
  List.find?_cons_of_neg (by simp [h])

/-- Nothing is at a key that comes before all keys of the list. -/
theorem pair?_eq_none_of_lt {k : κ} {l : List (κ × α)} (h : ∀ p ∈ l, compare k p.1 = .lt) :
    pair? k l = none := by
  refine List.find?_eq_none.2 fun p hp => ?_
  simp [h p hp]

variable [Std.TransOrd κ] {l l' : List (κ × α)} {k k' q : κ} {v v' w : α}

/-- A key before the first one comes before all. -/
theorem Ascending.lt_of_lt_head {rest : List (κ × α)} (h : Ascending ((k', v) :: rest))
    (hk : compare k k' = .lt) : ∀ p ∈ (k', v) :: rest, compare k p.1 = .lt := by
  rintro p (- | ⟨-, hp⟩)
  · exact hk
  · exact Std.TransCmp.lt_trans hk ((List.pairwise_cons.1 h).1 p hp)

/-! ### Putting a value at a key -/

/-- A pair that is listed after a value was put at a key has that key, or it was listed before. -/
theorem of_mem_place {p : κ × α} (hp : p ∈ place k v l) : compare k p.1 = .eq ∨ p ∈ l := by
  induction l with
  | nil =>
    obtain rfl := List.mem_singleton.1 hp
    exact .inl Std.ReflCmp.compare_self
  | cons entry rest ih =>
    obtain ⟨k', v'⟩ := entry
    rcases hk : compare k k' with - | - | - <;> simp only [place, hk, List.mem_cons] at hp ⊢
    · rcases hp with rfl | hp
      · exact .inl Std.ReflCmp.compare_self
      · exact .inr hp
    · rcases hp with rfl | hp
      · exact .inl hk
      · exact .inr (.inr hp)
    · rcases hp with rfl | hp
      · exact .inr (.inl rfl)
      · exact (ih hp).imp_right .inr

/-- Putting a value at a key keeps the order. -/
theorem Ascending.place (h : Ascending l) (k : κ) (v : α) : Ascending (place k v l) := by
  induction l with
  | nil => exact List.pairwise_singleton _ _
  | cons entry rest ih =>
    obtain ⟨k', v'⟩ := entry
    obtain ⟨hhead, hrest⟩ := List.pairwise_cons.1 h
    rcases hk : compare k k' with - | - | - <;> simp only [Dictionary.place, hk]
    · exact List.pairwise_cons.2 ⟨h.lt_of_lt_head hk, h⟩
    · exact List.pairwise_cons.2 ⟨hhead, hrest⟩
    · refine List.pairwise_cons.2 ⟨?_, ih hrest⟩
      intro p hp
      rcases of_mem_place hp with heq | hmem
      · exact Std.TransCmp.lt_of_lt_of_eq (Std.OrientedCmp.lt_of_gt hk) heq
      · exact hhead p hmem

/-- A key that is there keeps its spelling, and one that is not is spelled as it comes. -/
theorem Ascending.spelling?_place (h : Ascending l) (q k : κ) (v : α) :
    spelling? q (Dictionary.place k v l) =
      (spelling? q l).or (if compare q k = .eq then some k else none) := by
  induction l with
  | nil => cases hq : compare q k <;> simp [Dictionary.place, spelling?, pair?, hq]
  | cons entry rest ih =>
    obtain ⟨k', v'⟩ := entry
    rcases hk : compare k k' with - | - | - <;> simp only [Dictionary.place, hk, spelling?]
    · by_cases hq : compare q k = .eq
      · -- the key is before all of the list, so it was not there
        have hlt : compare q k' = .lt := Std.TransCmp.lt_of_eq_of_lt hq hk
        rw [pair?_cons_of_eq hq, pair?_eq_none_of_lt (h.lt_of_lt_head hlt), if_pos hq]
        rfl
      · rw [pair?_cons_of_ne hq, if_neg hq, Option.or_none]
    · by_cases hq : compare q k' = .eq
      · rw [pair?_cons_of_eq hq, pair?_cons_of_eq hq]
        rfl
      · have hqk : compare q k ≠ .eq := fun heq => hq (Std.TransCmp.eq_trans heq hk)
        rw [pair?_cons_of_ne hq, pair?_cons_of_ne hq, if_neg hqk, Option.or_none]
    · by_cases hq : compare q k' = .eq
      · rw [pair?_cons_of_eq hq, pair?_cons_of_eq hq]
        rfl
      · rw [pair?_cons_of_ne hq, pair?_cons_of_ne hq]
        exact ih (List.pairwise_cons.1 h).2

/-! ### What a list in ascending order is known from -/

/-- Two pairs of a list in ascending order whose keys compare as equal are one pair. -/
theorem Ascending.eq_of_compare (h : Ascending l) {p p' : κ × α} (hp : p ∈ l) (hp' : p' ∈ l)
    (heq : compare p.1 p'.1 = .eq) : p = p' := by
  induction l with
  | nil => cases hp
  | cons entry rest ih =>
    obtain ⟨hhead, hrest⟩ := List.pairwise_cons.1 h
    rcases List.mem_cons.1 hp with hfirst | hp
    · rcases List.mem_cons.1 hp' with hfirst' | hp'
      · rw [hfirst, hfirst']
      · rw [hfirst, hhead p' hp'] at heq
        cases heq
    · rcases List.mem_cons.1 hp' with hfirst' | hp'
      · rw [hfirst', Std.OrientedCmp.eq_comm, hhead p hp] at heq
        cases heq
      · exact ih hrest hp hp'

/-- A pair is listed if it is the one at its key. -/
theorem Ascending.pair?_eq_some_iff (h : Ascending l) {p : κ × α} : pair? p.1 l = some p ↔ p ∈ l := by
  constructor
  · exact List.mem_of_find?_eq_some
  · intro hp
    have hsome : (pair? p.1 l).isSome := by
      refine List.find?_isSome.2 ⟨p, hp, ?_⟩
      simp [Std.ReflCmp.compare_self]
    obtain ⟨p', hp'⟩ := Option.isSome_iff_exists.1 hsome
    have hcompare : compare p.1 p'.1 = .eq := by simpa using List.find?_some hp'
    rw [hp', h.eq_of_compare hp (List.mem_of_find?_eq_some hp') hcompare]

/-- A pair is listed if its key is there as it is spelled and has its value. -/
theorem Ascending.mem_iff (h : Ascending l) :
    (q, w) ∈ l ↔ spelling? q l = some q ∧ find? q l = some w := by
  rw [← h.pair?_eq_some_iff, spelling?, find?_eq_pair?]
  cases pair? q l with
  | none => simp
  | some p => simp [Prod.ext_iff]

theorem Ascending.nodup (h : Ascending l) : l.Nodup := by
  refine h.imp fun {p p'} hlt heq => ?_
  have hself : compare p.1 p.1 = .eq := Std.ReflCmp.compare_self
  rw [← heq, hself] at hlt
  cases hlt

/-- Whether one pair may stand before another. -/
def inOrder (p p' : κ × α) : Bool := (compare p.1 p'.1).isLE

omit [Std.TransOrd κ] in
theorem Ascending.pairwise_inOrder (h : Ascending l) : l.Pairwise fun p p' => inOrder p p' := by
  refine h.imp fun hlt => ?_
  rw [inOrder, hlt]
  rfl

/-- No other order of its members is ascending. -/
theorem Ascending.eq_of_perm (h : Ascending l) (hl' : l'.Pairwise fun p p' => inOrder p p')
    (hperm : l'.Perm l) : l' = l := by
  refine hperm.eq_of_pairwise ?_ hl' h.pairwise_inOrder
  intro p p' hp hp' hle hge
  exact h.eq_of_compare (hperm.subset hp) hp' (Std.OrientedCmp.isLE_antisymm hle hge)

/-- Sorting the members brings the list back, in whatever order they were. -/
theorem Ascending.mergeSort_eq (h : Ascending l) (hperm : l'.Perm l) : l'.mergeSort inOrder = l := by
  have htrans : ∀ a b c : κ × α, inOrder a b → inOrder b c → inOrder a c :=
    fun _ _ _ => Std.TransCmp.isLE_trans
  have htotal : ∀ a b : κ × α, inOrder a b || inOrder b a := by
    intro a b
    have hswap : compare b.1 a.1 = (compare a.1 b.1).swap := Std.OrientedCmp.eq_swap
    rw [inOrder, inOrder, hswap]
    cases compare a.1 b.1 <;> rfl
  exact h.eq_of_perm (List.pairwise_mergeSort htrans htotal l') ((List.mergeSort_perm l' _).trans hperm)

/-- Two lists in ascending order with the same members are equal. -/
theorem Ascending.ext (h : Ascending l) (h' : Ascending l') (hmem : ∀ p, p ∈ l' ↔ p ∈ l) : l' = l := by
  have hperm : l'.Perm l := (List.perm_ext_iff_of_nodup h'.nodup h.nodup).2 hmem
  exact h.eq_of_perm h'.pairwise_inOrder hperm

/-- The first key of a list is not before that of another list with the same values at each key. -/
theorem Ascending.not_head_lt {rest rest' : List (κ × α)} (h' : Ascending ((k', v') :: rest'))
    (hfind : find? k ((k, v) :: rest) = find? k ((k', v') :: rest')) : compare k k' ≠ .lt := by
  intro hlt
  rw [find?_eq_pair?, find?_eq_pair?, pair?_cons_of_eq Std.ReflCmp.compare_self,
    pair?_eq_none_of_lt (h'.lt_of_lt_head hlt)] at hfind
  cases hfind

/-- Without its first pair a list has the values that it had, but none at the key of that pair. -/
theorem Ascending.find?_tail {rest : List (κ × α)} (h : Ascending ((k, v) :: rest)) (q : κ) :
    find? q rest = if compare q k = .eq then none else find? q ((k, v) :: rest) := by
  rw [find?_eq_pair?, find?_eq_pair?]
  split
  · next hq =>
    rw [pair?_eq_none_of_lt]
    · rfl
    · exact fun p hp => Std.TransCmp.lt_of_eq_of_lt hq ((List.pairwise_cons.1 h).1 p hp)
  · next hq => rw [pair?_cons_of_ne hq]

/-- Two lists in ascending order that have the same values at each key are equal up to the spelling of the
keys. -/
theorem Ascending.forall₂_of_find?_eq (h : Ascending l) (h' : Ascending l')
    (hfind : ∀ k, find? k l = find? k l') :
    List.Forall₂ (fun p p' => compare p.1 p'.1 = .eq ∧ p.2 = p'.2) l l' := by
  have hself : ∀ (k : κ) (v : α) rest, find? k ((k, v) :: rest) = some v := by
    intro k v rest
    rw [find?_eq_pair?, pair?_cons_of_eq Std.ReflCmp.compare_self]
    rfl
  induction l generalizing l' with
  | nil =>
    cases l' with
    | nil => exact .nil
    | cons entry' rest' => cases (hfind entry'.1).trans (hself entry'.1 entry'.2 rest')
  | cons entry rest ih =>
    cases l' with
    | nil => cases (hself entry.1 entry.2 rest).symm.trans (hfind entry.1)
    | cons entry' rest' =>
      obtain ⟨k, v⟩ := entry
      obtain ⟨k', v'⟩ := entry'
      -- the smaller of two different first keys would be in one list only
      have hkeys : compare k k' = .eq := by
        rcases hk : compare k k' with - | - | -
        · exact absurd hk (h'.not_head_lt (hfind k))
        · rfl
        · exact absurd (Std.OrientedCmp.lt_of_gt hk) (h.not_head_lt (hfind k').symm)
      have hvalues : v = v' := by
        have hat := hfind k
        rw [hself, find?_eq_pair?, pair?_cons_of_eq hkeys] at hat
        exact Option.some.inj hat
      refine .cons ⟨hkeys, hvalues⟩ ?_
      refine ih (List.pairwise_cons.1 h).2 (List.pairwise_cons.1 h').2 fun q => ?_
      have hcongr : compare q k = compare q k' := Std.TransCmp.congr_right hkeys
      rw [h.find?_tail, h'.find?_tail, hfind q, hcongr]

/-! ### The values that were put into it -/

/-- The dictionary after values were put into an empty one, the last of them listed first. -/
def ofWrites : List (κ × α) → Dictionary κ α
  | [] => {}
  | (k, v) :: ws => (ofWrites ws).insert k v

theorem ascending_ofWrites (ws : List (κ × α)) : Ascending (ofWrites ws).entries := by
  induction ws with
  | nil => exact .nil
  | cons w ws ih => exact ih.place w.1 w.2

/-- The last value that was put at a key is there. -/
theorem find?_ofWrites (k : κ) (ws : List (κ × α)) : find? k (ofWrites ws).entries = find? k ws := by
  induction ws with
  | nil => rfl
  | cons w ws ih =>
    obtain ⟨k', v⟩ := w
    show find? k (Dictionary.place k' v (ofWrites ws).entries) = _
    rw [find?_place, ih, find?_eq_pair? k ((k', v) :: ws)]
    split
    · next hk => rw [pair?_cons_of_eq hk]; rfl
    · next hk => rw [pair?_cons_of_ne hk, find?_eq_pair?]

/-- A key is there in the spelling in which it came first. -/
theorem spelling?_ofWrites (k : κ) (ws : List (κ × α)) :
    spelling? k (ofWrites ws).entries = spelling? k ws.reverse := by
  induction ws with
  | nil => rfl
  | cons w ws ih =>
    obtain ⟨k', v⟩ := w
    show spelling? k (Dictionary.place k' v (ofWrites ws).entries) = _
    rw [(ascending_ofWrites ws).spelling?_place, ih, List.reverse_cons]
    simp only [spelling?, pair?, List.find?_append, Option.map_or]
    congr 1
    split
    · next hk => simp [hk]
    · next hk => simp [hk]

end TableScript.Dictionary
