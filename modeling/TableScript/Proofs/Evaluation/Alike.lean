import Mathlib.Data.List.Forall2
import TableScript.Machine
import TableScript.Value.Operator

/-!
# Machines that hold alike values

Two machines can have the same shape and hold different functions: the code in one may come from other
lines than the code in the other.  `Value.Alike F G` relates two values that are the same up to
functions, which `F` relates; `G` says which tables count as values at all.  A relation `V` on values is
carried over to dictionaries, frames, scopes and stores.

Main results: everything that a run can do to scopes and tables takes alike ones to alike ones
(`Scopes.Alike.push`, `pop`, `define`, `reassign`, `setResult`, `Tables.Alike.create`, `insert`), and
what is looked up in them is alike (`lookup`, `result?`, `get`).

A machine may be related to itself.  Then `F` and `G` say what it holds, and the lemmas say that this
stays so.  That is why a store is compared only in the tables that count, and why a table that is not
there yet has to count (`Tables.Alike.fresh`): a table that nothing leads to may hold anything.  What a
machine leads to is enough for a start (`Machine.alike_self_of_reaches`).
-/

namespace TableScript

/-- The same value up to functions, which `F` relates, and with a place in `G` if it is a table. -/
inductive Value.Alike (F : Routine → Routine → Prop) (G : TableId → Prop) : Value → Value → Prop
  | number (x : Float) : Alike F G (.number x) (.number x)
  | text (s : String) : Alike F G (.text s) (.text s)
  | bool (b : Bool) : Alike F G (.bool b) (.bool b)
  | null : Alike F G .null .null
  | function {f f' : Routine} : F f f' → Alike F G (.function f) (.function f')
  | table {t : TableId} : G t → Alike F G (.table t) (.table t)

/-- Two operations fail for the same reason, or both succeed with related results. -/
inductive Agree {α : Type} (A : α → α → Prop) :
    Except RuntimeError α → Except RuntimeError α → Prop
  | ok {a a' : α} : A a a' → Agree A (.ok a) (.ok a')
  | error (e : RuntimeError) : Agree A (.error e) (.error e)

/-! ### Operators -/

namespace Value.Alike

variable {F : Routine → Routine → Prop} {G : TableId → Prop} {v v' w w' : Value}

theorem sign (h : Alike F G v v') (op : Sign) : Agree (Alike F G) (op.apply v) (op.apply v') := by
  cases h with
  | number x =>
    cases op
    · exact .ok (.number x)
    · exact .ok (.number (-x))
  | _ => cases op <;> exact .error _

/-- The result of arithmetic on numbers is a number, and a failure does not depend on which. -/
theorem agree_onNumbers (op : ArithOp) (x y : Float) :
    Agree (Alike F G) ((op.onNumbers x y).map .number) ((op.onNumbers x y).map .number) := by
  rcases op.onNumbers x y with e | z
  · exact .error e
  · exact .ok (.number z)

theorem arith (h : Alike F G v v') (h' : Alike F G w w') (op : ArithOp) :
    Agree (Alike F G) (op.apply v w) (op.apply v' w') := by
  cases h with
  | number x =>
    cases h' with
    | number y =>
      have hnumbers : op.apply (.number x) (.number y) = (op.onNumbers x y).map .number := by
        cases op <;> rfl
      rw [hnumbers]
      exact agree_onNumbers op x y
    | _ => cases op <;> exact .error _
  | text s =>
    cases h' with
    | text t =>
      cases op with
      | add => exact .ok (.text (s ++ t))
      | _ => exact .error _
    | _ => cases op <;> exact .error _
  | _ => cases h' <;> cases op <;> exact .error _

theorem compare (h : Alike F G v v') (h' : Alike F G w w') (op : CompareOp) :
    Agree (Alike F G) (op.apply v w) (op.apply v' w') := by
  cases h with
  | number x =>
    cases h' with
    | number y => exact .ok (.bool (op.onNumbers x y))
    | _ => exact .error _
  | _ => cases h' <;> exact .error _

theorem toBool (h : Alike F G v v') : Agree Eq v.toBool v'.toBool := by
  cases h with
  | bool b => exact .ok rfl
  | _ => exact .error _

theorem toTable (h : Alike F G v v') :
    Agree (fun t t' => t' = t ∧ G t) v.toTable v'.toTable := by
  cases h with
  | table ht => exact .ok ⟨rfl, ht⟩
  | _ => exact .error _

theorem toRoutine (h : Alike F G v v') : Agree F v.toRoutine v'.toRoutine := by
  cases h with
  | function hf => exact .ok hf
  | _ => exact .error _

theorem toKey (h : Alike F G v v') : Agree Eq (Key.ofValue v) (Key.ofValue v') := by
  cases h with
  | number | text | bool => exact .ok rfl
  | _ => exact .error _

end Value.Alike

/-! ### Dictionaries -/

/-- The same keys, with related values. -/
def Dictionary.Alike {κ : Type} (V : Value → Value → Prop) (d d' : Dictionary κ Value) : Prop :=
  List.Forall₂ (fun e e' => e'.1 = e.1 ∧ V e.2 e'.2) d.entries d'.entries

namespace Dictionary.Alike

variable {κ : Type} [Ord κ] {V : Value → Value → Prop} {d d' : Dictionary κ Value} {v v' : Value}

theorem get? (h : d.Alike V d') (k : κ) : Option.Rel V (d.get? k) (d'.get? k) := by
  have hfind : ∀ l l' : List (κ × Value),
      List.Forall₂ (fun e e' => e'.1 = e.1 ∧ V e.2 e'.2) l l' →
        Option.Rel V (find? k l) (find? k l') := by
    intro l l' hl
    induction hl with
    | nil => exact .none
    | @cons e e' l l' he _ ih =>
      obtain ⟨q, v⟩ := e
      obtain ⟨q', v'⟩ := e'
      obtain ⟨rfl, hv⟩ : q' = q ∧ V v v' := he
      unfold find?
      rcases Ord.compare k q' with - | - | -
      · exact ih
      · exact .some hv
      · exact ih
  exact hfind _ _ h

theorem contains_eq (h : d.Alike V d') (k : κ) : d'.contains k = d.contains k := by
  unfold Dictionary.contains
  have hvalue := h.get? k
  generalize d.get? k = r, d'.get? k = r' at hvalue ⊢
  cases hvalue with
  | none => rfl
  | some _ => rfl

theorem insert (h : d.Alike V d') (k : κ) (hv : V v v') : (d.insert k v).Alike V (d'.insert k v') := by
  have hplace : ∀ l l' : List (κ × Value),
      List.Forall₂ (fun e e' => e'.1 = e.1 ∧ V e.2 e'.2) l l' →
        List.Forall₂ (fun e e' => e'.1 = e.1 ∧ V e.2 e'.2) (place k v l) (place k v' l') := by
    intro l l' hl
    induction hl with
    | nil => exact .cons ⟨rfl, hv⟩ .nil
    | @cons e e' l l' he hrest ih =>
      obtain ⟨q, w⟩ := e
      obtain ⟨q', w'⟩ := e'
      obtain ⟨rfl, hw⟩ : q' = q ∧ V w w' := he
      unfold place
      rcases Ord.compare k q' with - | - | -
      · exact .cons ⟨rfl, hv⟩ (.cons ⟨rfl, hw⟩ hrest)
      · exact .cons ⟨rfl, hv⟩ hrest
      · exact .cons ⟨rfl, hw⟩ ih
  exact hplace _ _ h

end Dictionary.Alike

/-! ### Frames -/

/-- Both were opened by a conditional or a loop, or both by calls with related results. -/
inductive FrameKind.Alike (V : Value → Value → Prop) : FrameKind → FrameKind → Prop
  | block : Alike V .block .block
  | function {v v' : Value} : V v v' → Alike V (.function v) (.function v')

/-- The same names with related values, in the same place. -/
structure Frame.Alike (V : Value → Value → Prop) (f f' : Frame) : Prop where
  names : f.names.Alike V f'.names
  parent : f'.parent = f.parent
  kind : f.kind.Alike V f'.kind

/-! ### Scopes -/

/-- Related frames at the same places, and the same one is current. -/
structure Scopes.Alike (V : Value → Value → Prop) (s s' : Scopes) : Prop where
  depth : s'.depth = s.depth
  current : s'.current = s.current
  frame : ∀ i : Nat, Option.Rel (Frame.Alike V) s.frames[i]? s'.frames[i]?

namespace Scopes.Alike

variable {V : Value → Value → Prop} {s s' : Scopes} {v v' : Value}

theorem size_eq (h : s.Alike V s') : s'.frames.size = s.frames.size :=
  h.depth

theorem top? (h : s.Alike V s') : Option.Rel (Frame.Alike V) s.top? s'.top? := by
  unfold Scopes.top?
  rw [h.current]
  exact h.frame s.current

theorem push (h : s.Alike V s') {kind kind' : FrameKind} (hkind : kind.Alike V kind') :
    (s.push kind).Alike V (s'.push kind') where
  depth := by simp [Scopes.push, Scopes.depth, h.size_eq]
  current := h.depth
  frame i := by
    simp only [Scopes.push, Array.getElem?_push, h.size_eq, h.current]
    split
    · exact .some ⟨.nil, rfl, hkind⟩
    · exact h.frame i

theorem back? (h : s.Alike V s') :
    Option.Rel (Frame.Alike V) s.frames.back? s'.frames.back? := by
  rw [Array.back?_eq_getElem?, Array.back?_eq_getElem?, h.size_eq]
  exact h.frame _

theorem pop (h : s.Alike V s') : s.pop.2.Alike V s'.pop.2 := by
  unfold Scopes.pop
  rw [h.current]
  split
  · exact h
  · -- the frames that are closed are related, so they have the same parent
    have hlast := h.back?
    generalize s.frames.back? = last, s'.frames.back? = last' at hlast ⊢
    cases hlast with
    | none => exact h
    | some hframe =>
      refine ⟨?_, ?_, fun i => ?_⟩
      · simp [Scopes.depth, h.size_eq]
      · show Option.getD _ 0 = Option.getD _ 0
        rw [hframe.parent]
      · simp only [Array.getElem?_pop, h.size_eq]
        split
        · exact h.frame i
        · exact .none

/-- Related changes at one place keep scopes alike. -/
theorem modify (h : s.Alike V s') (i : Nat) {g g' : Frame → Frame}
    (hg : ∀ f f', f.Alike V f' → (g f).Alike V (g' f')) :
    Scopes.Alike V { s with frames := s.frames.modify i g }
      { s' with frames := s'.frames.modify i g' } where
  depth := by simpa [Scopes.depth] using h.depth
  current := h.current
  frame j := by
    simp only [Array.getElem?_modify]
    split
    · have hframe := h.frame j
      generalize s.frames[j]? = f, s'.frames[j]? = f' at hframe ⊢
      cases hframe with
      | none => exact .none
      | some hframe => exact .some (hg _ _ hframe)
    · exact h.frame j

theorem bindAt (h : s.Alike V s') (i : Nat) (name : String) (hv : V v v') :
    (s.bindAt i name v).Alike V (s'.bindAt i name v') :=
  h.modify i fun _ _ hf => ⟨hf.names.insert name hv, hf.parent, hf.kind⟩

theorem define (h : s.Alike V s') (name : String) (hv : V v v') :
    (s.define name v).Alike V (s'.define name v') := by
  unfold Scopes.define
  rw [h.current]
  exact h.bindAt s.current name hv

/-- A search goes by names and parents, so it ends at the same frame. -/
theorem binder?_eq (h : s.Alike V s') (name : String) (i : Nat) :
    binder? s'.frames name i = binder? s.frames name i := by
  induction i using Nat.strongRecOn with
  | ind i ih =>
    rw [binder?, binder?]
    have hframe := h.frame i
    generalize s.frames[i]? = f, s'.frames[i]? = f' at hframe ⊢
    cases hframe with
    | none => rfl
    | @some f f' hframe =>
      simp only [hframe.names.contains_eq, hframe.parent]
      split
      · rfl
      · rcases f.parent with - | p
        · rfl
        · simp only
          split
          · next hlt => exact ih p hlt
          · rfl

theorem lookup (h : s.Alike V s') (name : String) :
    Option.Rel V (s.lookup name) (s'.lookup name) := by
  unfold Scopes.lookup
  rw [h.current, h.binder?_eq]
  rcases binder? s.frames name s.current with - | i
  · exact .none
  · show Option.Rel V (s.frames[i]? >>= fun f => f.names.get? name)
      (s'.frames[i]? >>= fun f => f.names.get? name)
    have hframe := h.frame i
    generalize s.frames[i]? = f, s'.frames[i]? = f' at hframe ⊢
    cases hframe with
    | none => exact .none
    | some hframe => exact hframe.names.get? name

theorem outerBinder?_eq (h : s.Alike V s') (name : String) :
    s'.outerBinder? name = s.outerBinder? name := by
  unfold Scopes.outerBinder?
  have htop := h.top?
  generalize s.top? = f, s'.top? = f' at htop ⊢
  cases htop with
  | none => rfl
  | @some f f' hframe =>
    simp only [Option.bind_eq_bind, Option.bind_some, hframe.parent]
    rcases f.parent with - | p
    · rfl
    · exact h.binder?_eq name p

theorem reassign (h : s.Alike V s') (name : String) (hv : V v v') :
    (s'.reassign name v').1 = (s.reassign name v).1 ∧
      (s.reassign name v).2.Alike V (s'.reassign name v').2 := by
  unfold Scopes.reassign
  rw [h.outerBinder?_eq]
  rcases s.outerBinder? name with - | i
  · exact ⟨rfl, h⟩
  · exact ⟨rfl, h.bindAt i name hv⟩

theorem result? (h : s.Alike V s') : Option.Rel V s.result? s'.result? := by
  unfold Scopes.result?
  have htop := h.top?
  generalize s.top? = f, s'.top? = f' at htop ⊢
  cases htop with
  | none => exact .none
  | @some f f' hframe =>
    obtain ⟨names, parent, kind⟩ := f
    obtain ⟨names', parent', kind'⟩ := f'
    have hkind : kind.Alike V kind' := hframe.kind
    cases hkind with
    | block => exact .none
    | function hv => exact .some hv

theorem setResult (h : s.Alike V s') (hv : V v v') :
    (s'.setResult v').1 = (s.setResult v).1 ∧ (s.setResult v).2.Alike V (s'.setResult v').2 := by
  unfold Scopes.setResult
  have hresult := h.result?
  generalize s.result? = r, s'.result? = r' at hresult ⊢
  cases hresult with
  | none => exact ⟨rfl, h⟩
  | some _ =>
    refine ⟨rfl, ?_⟩
    have hkind : ∀ f f' : Frame, f.Alike V f' →
        Frame.Alike V { f with kind := .function v } { f' with kind := .function v' } :=
      fun _ _ hf => ⟨hf.names, hf.parent, .function hv⟩
    have hmodify := h.modify s.current hkind
    rw [h.current] at hmodify ⊢
    exact hmodify

end Scopes.Alike

/-! ### Stores of tables -/

/-- As many tables, and related entries in those that count.  Tables that are not there yet count. -/
structure Tables.Alike (V : Value → Value → Prop) (ts ts' : Tables) : Prop where
  size : ts'.contents.size = ts.contents.size
  table : ∀ t, V (.table t) (.table t) → (ts.table t).Alike V (ts'.table t)
  fresh : ∀ t : TableId, ts.contents.size ≤ t.index → V (.table t) (.table t)

namespace Tables.Alike

variable {V : Value → Value → Prop} {ts ts' : Tables} {t : TableId} {v v' : Value}

/-- A new table gets the same place in both stores, one that counts. -/
theorem create (h : ts.Alike V ts') :
    ts'.create.1 = ts.create.1 ∧ V (.table ts.create.1) (.table ts.create.1) ∧
      ts.create.2.Alike V ts'.create.2 := by
  refine ⟨?_, h.fresh _ (Nat.le_refl _), ?_, fun t ht => ?_, fun t ht => ?_⟩
  · simp [Tables.create, h.size]
  · simp [Tables.create, h.size]
  · rw [Tables.table_create, Tables.table_create]
    exact h.table t ht
  · refine h.fresh t (Nat.le_trans ?_ ht)
    simp [Tables.create]

theorem get (h : ts.Alike V ts') (hnull : V .null .null) (ht : V (.table t) (.table t)) (k : Key) :
    V (ts.get t k) (ts'.get t k) := by
  unfold Tables.get
  have hentry := (h.table t ht).get? k
  generalize (ts.table t).get? k = r, (ts'.table t).get? k = r' at hentry ⊢
  cases hentry with
  | none => exact hnull
  | some hv => exact hv

theorem insert (h : ts.Alike V ts') (t : TableId) (k : Key) (hv : V v v') :
    (ts.insert t k v).Alike V (ts'.insert t k v') where
  size := by rw [Tables.size_insert, Tables.size_insert, h.size]
  table u hu := by
    by_cases hlt : u.index < ts.contents.size
    · rw [Tables.table_insert t k v hlt, Tables.table_insert t k v' (h.size ▸ hlt)]
      split
      · exact (h.table u hu).insert k hv
      · exact h.table u hu
    · have hle : ts.contents.size ≤ u.index := Nat.le_of_not_lt hlt
      rw [Tables.table_insert_of_le t k v hle, Tables.table_insert_of_le t k v' (h.size ▸ hle)]
      exact .nil
  fresh u hu := h.fresh u (by rwa [Tables.size_insert] at hu)

end Tables.Alike

/-! ### What a machine leads to -/

/-- What a machine leads to: the values in its frames, the results of calls, and what stands in the
tables that it leads to. -/
inductive Machine.Reaches (m : Machine) : Value → Prop
  | bound {f : Frame} {name : String} {v : Value} :
      f ∈ m.scopes.frames → (name, v) ∈ f.names.entries → Reaches m v
  | result {f : Frame} {v : Value} : f ∈ m.scopes.frames → f.kind = .function v → Reaches m v
  | entry {t : TableId} {k : Key} {v : Value} :
      Reaches m (.table t) → (k, v) ∈ m.tables.entries t → Reaches m v

/-- The tables that a machine leads to, and those that it does not have yet. -/
def Machine.Known (m : Machine) (t : TableId) : Prop :=
  m.Reaches (.table t) ∨ m.tables.contents.size ≤ t.index

/-- A machine is alike to itself if the functions that it leads to are. -/
theorem Machine.alike_self_of_reaches (m : Machine) {F : Routine → Routine → Prop}
    (hF : ∀ f, m.Reaches (.function f) → F f f) :
    m.scopes.Alike (Value.Alike F m.Known) m.scopes ∧
      m.tables.Alike (Value.Alike F m.Known) m.tables := by
  have hheld : ∀ v, m.Reaches v → Value.Alike F m.Known v v := by
    intro v hv
    cases v with
    | number x => exact .number x
    | text s => exact .text s
    | bool b => exact .bool b
    | null => exact .null
    | function f => exact .function (hF f hv)
    | table t => exact .table (.inl hv)
  refine ⟨⟨rfl, rfl, fun i => ?_⟩, ⟨rfl, fun t ht => ?_, fun t ht => .table (.inr ht)⟩⟩
  · rcases hframe : m.scopes.frames[i]? with - | f
    · exact .none
    · have hmem : f ∈ m.scopes.frames := Array.mem_of_getElem? hframe
      refine .some ⟨List.forall₂_same.2 fun e he => ⟨rfl, hheld _ (.bound hmem he)⟩, rfl, ?_⟩
      rcases hkind : f.kind with - | v
      · exact .block
      · exact .function (hheld v (.result hmem hkind))
  · apply List.forall₂_same.2
    intro e he
    cases ht with
    | table ht =>
      rcases ht with hreach | hfresh
      · exact ⟨rfl, hheld _ (.entry hreach he)⟩
      · -- a table that is not there has no entries
        simp [Tables.table, Array.getD_eq_getD_getElem?, Array.getElem?_eq_none hfresh] at he

end TableScript
