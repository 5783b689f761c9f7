import TableScript.Proofs.Evaluation.Parametric
import TableScript.Proofs.Evaluation.StackDiscipline

/-!
# What code can write to

A plain assignment binds a name in the current frame.  Two forms of assignment reach further: one
overwrites a name outside of the current frame, and one puts a value into a table.  Nothing else does.  So
if a name is never overwritten by the code that runs, then its bindings in the frames outside stay as they
are, and if no code puts values into tables, then the tables that are there stay as they are
(`write_footprint`).

Names are looked up where a function is called and not where it is written, so which code runs is not
plain from the text: it is the code at hand and the functions that the machine leads to, in its frames, in
the results of calls and in tables.  That the code stays among these nodes while all of them change is an
invariant (`Machine.Confined`), kept together with the effect that is allowed (`Machine.Effect`).  The walk
over programs is that of `Parametric`, for a relation that says nothing of its second run
(`parametric_writes`).

A literal fills a table that did not exist before, so it is no assignment to a table that did.  What runs
in a frame of its own may bind names there; the frame is gone when it is done.
-/

namespace TableScript

/-! ### Bindings -/

/-- What a frame binds a name to, if there is such a frame. -/
def Scopes.bindingAt (s : Scopes) (i : Nat) (name : String) : Option (Option Value) :=
  s.frames[i]?.map fun f => f.names.get? name

namespace Scopes

variable {s s' : Scopes} {i : Nat} {name : String}

theorem bindingAt_bindAt_of_ne_name {j : Nat} {other : String} {v : Value} (h : name ≠ other) :
    (s.bindAt j other v).bindingAt i name = s.bindingAt i name := by
  have hkeys : compare name other ≠ .eq := fun heq => h (Std.LawfulEqOrd.eq_of_compare heq)
  simp only [bindingAt, bindAt, Array.getElem?_modify]
  split
  · rw [Option.map_map]
    congr 1
    funext f
    show (f.names.insert other v).get? name = f.names.get? name
    rw [Dictionary.get?_insert, if_neg hkeys]
  · rfl

theorem bindingAt_define (v : Value) {other : String} (h : i ≠ s.current) :
    (s.define other v).bindingAt i name = s.bindingAt i name := by
  simp only [bindingAt, define, bindAt, Array.getElem?_modify, if_neg h.symm]

theorem bindingAt_reassign (v : Value) {other : String} (h : name ≠ other) :
    (s.reassign other v).2.bindingAt i name = s.bindingAt i name := by
  unfold reassign
  rcases s.outerBinder? other with - | j
  · rfl
  · exact bindingAt_bindAt_of_ne_name h

theorem bindingAt_setResult (v : Value) :
    (s.setResult v).2.bindingAt i name = s.bindingAt i name := by
  unfold setResult
  rcases s.result? with - | w
  · rfl
  · simp only [bindingAt, Array.getElem?_modify]
    split
    · rw [Option.map_map]
      rfl
    · rfl

/-- What happens in a frame of its own is gone with the frame. -/
theorem bindingAt_pop {kind : FrameKind} (hi : i < s.depth)
    (h : (s.push kind).Change Frame.Grown s')
    (hsame : s'.bindingAt i name = (s.push kind).bindingAt i name) :
    s'.pop.2.bindingAt i name = s.bindingAt i name := by
  have hi : i < s.frames.size := hi
  have hsize : s'.frames.size = s.frames.size + 1 := by simpa [Scopes.depth, push] using h.depth
  calc s'.pop.2.bindingAt i name
      = s'.bindingAt i name := by
        rw [h.pop_eq (Nat.zero_lt_of_lt hi)]
        simp only [bindingAt, Array.getElem?_pop]
        rw [if_pos (by omega)]
    _ = (s.push kind).bindingAt i name := hsame
    _ = s.bindingAt i name := by
        simp only [bindingAt, push, Array.getElem?_push]
        rw [if_neg (by omega)]

end Scopes

/-! ### Effects -/

/-- Code with the nodes of `k` took one machine to the other.  No name was overwritten outside of the
current frame unless there is a node for it, and no table but a fresh one was written to unless there is a
node for that. -/
structure Machine.Effect (k : Comparison) (part : Part) (m m' : Machine) : Prop where
  scopes : 0 < m.scopes.depth → m.scopes.Change part.top m'.scopes
  names : ∀ name, (∀ n, k.nodes n → n.form ≠ .reassign name) → ∀ i < m.scopes.depth,
    (part = .statement → i ≠ m.scopes.current) →
      m'.scopes.bindingAt i name = m.scopes.bindingAt i name
  tables : (∀ n, k.nodes n → n.form ≠ .store) → ∀ t, ¬ k.fresh t →
    m'.tables.table t = m.tables.table t

namespace Machine.Effect

variable {k : Comparison} {part : Part} {m m' m'' : Machine}

theorem refl (m : Machine) : m.Effect k part m :=
  ⟨fun _ => .refl _, fun _ _ _ _ _ => rfl, fun _ _ _ => rfl⟩

theorem trans (h : m.Effect k part m') (h' : m'.Effect k part m'') : m.Effect k part m'' where
  scopes hpos := by
    have hfirst := h.scopes hpos
    exact hfirst.trans (h'.scopes (hfirst.depth ▸ hpos))
  names name hname i hi hpart := by
    have hfirst := h.scopes (Nat.zero_lt_of_lt hi)
    calc m''.scopes.bindingAt i name
        = m'.scopes.bindingAt i name :=
          h'.names name hname i (hfirst.depth ▸ hi) (hfirst.current ▸ hpart)
      _ = m.scopes.bindingAt i name := h.names name hname i hi hpart
  tables hstore t ht := (h'.tables hstore t ht).trans (h.tables hstore t ht)

theorem weaken (h : m.Effect k .expression m') : m.Effect k .statement m' where
  scopes hpos := (h.scopes hpos).mono Frame.Kept.grown
  names name hname i hi _ := h.names name hname i hi nofun
  tables := h.tables

/-- What is done in a frame of its own. -/
theorem closed {kind : FrameKind} {m₀ m₁ : Machine} (h : m₀.Effect k .statement m₁)
    (hscopes : m₀.scopes = m.scopes.push kind) (htables : m₀.tables = m.tables)
    (hscopes' : m'.scopes = m₁.scopes.pop.2) (htables' : m'.tables = m₁.tables) :
    m.Effect k .expression m' := by
  have hpos : 0 < (m.scopes.push kind).depth := by simp [Scopes.push, Scopes.depth]
  have hchange : (m.scopes.push kind).Change Frame.Grown m₁.scopes :=
    hscopes ▸ h.scopes (hscopes ▸ hpos)
  refine ⟨fun hdepth => ?_, fun name hname i hi _ => ?_, fun hstore t ht => ?_⟩
  · rw [hscopes']
    exact hchange.closed hdepth
  · -- the frame that was opened is the current one, so no frame that was there is concerned
    have hlt : i < m.scopes.frames.size := hi
    have hinner := h.names name hname i
    rw [hscopes] at hinner
    rw [hscopes']
    refine Scopes.bindingAt_pop hi hchange (hinner ?_ fun _ => ?_)
    · simp only [Scopes.push, Scopes.depth, Array.size_push]
      omega
    · exact Nat.ne_of_lt hlt
  · rw [htables', h.tables hstore t ht, htables]

end Machine.Effect

/-! ### Confined runs -/

/-- The functions that the machine leads to are made of nodes of `k`, and the tables that it does not have
yet are fresh. -/
structure Machine.Confined (k : Comparison) (m : Machine) : Prop where
  scopes : m.scopes.Alike k.Related m.scopes
  tables : m.tables.Alike k.Related m.tables
  fresh : ∀ t : TableId, m.tables.contents.size ≤ t.index → k.fresh t

namespace Run

variable {k : Comparison} {part : Part} {α β : Type} {P : α → Prop} {Q : β → Prop}

/-- A run that keeps a machine confined and has no other effect than it may.  Its value, if there is
one, is in `P`. -/
def Writes (k : Comparison) (part : Part) (P : α → Prop) (x : Run α) : Prop :=
  ∀ m, m.Confined k →
    (x m).2.Confined k ∧ m.Effect k part (x m).2 ∧ ∀ a, (x m).1 = .ok a → P a

theorem writes_of_same {x : Run α} (hsame : ∀ m, (x m).2 = m)
    (hvalue : ∀ m, m.Confined k → ∀ a, (x m).1 = .ok a → P a) : Writes k part P x := by
  intro m hm
  refine ⟨?_, ?_, hvalue m hm⟩
  · rw [hsame m]
    exact hm
  · rw [hsame m]
    exact .refl m

theorem Writes.weaken {x : Run α} (hx : Writes k .expression P x) : Writes k .statement P x := by
  intro m hm
  obtain ⟨hm₁, heffect, hvalue⟩ := hx m hm
  exact ⟨hm₁, heffect.weaken, hvalue⟩

theorem Writes.mono {x : Run α} {P' : α → Prop} (hx : Writes k part P x) (hP : ∀ a, P a → P' a) :
    Writes k part P' x := by
  intro m hm
  obtain ⟨hm₁, heffect, hvalue⟩ := hx m hm
  exact ⟨hm₁, heffect, fun a ha => hP a (hvalue a ha)⟩

theorem Writes.bind {x : Run α} {f : α → Run β} (hx : Writes k part P x)
    (hf : ∀ a, P a → Writes k part Q (f a)) : Writes k part Q (x >>= f) := by
  intro m hm
  obtain ⟨hm₁, heffect, hvalue⟩ := hx m hm
  rcases hxm : x m with ⟨e | a, m₁⟩
  · -- an early exit leaves the machine as `x` left it
    rw [hxm] at hm₁ heffect
    rw [Action.bind_of_error hxm]
    exact ⟨hm₁, heffect, nofun⟩
  · rw [hxm] at hm₁ heffect hvalue
    rw [Action.bind_of_ok hxm]
    obtain ⟨hm₂, heffect', hvalue'⟩ := hf a (hvalue a rfl) m₁ hm₁
    exact ⟨hm₂, heffect.trans heffect', hvalue'⟩

/-! ### Names -/

theorem writes_failAt (line : Nat) (e : RuntimeError) : Writes k part P (failAt line e) :=
  writes_of_same (fun _ => rfl) fun _ _ _ => nofun

theorem writes_lookup (line : Nat) (name : String) :
    Writes k part (fun v => k.Related v v) (lookup line name) := by
  refine writes_of_same (fun m => by rw [lookup_apply]) fun m hm v hv => ?_
  rw [lookup_apply] at hv
  have hvalue := hm.scopes.lookup name
  generalize m.scopes.lookup name = r at hv hvalue
  cases hvalue with
  | none => cases hv
  | some hrelated =>
    cases hv
    exact hrelated

/-- A step that changes the scopes and nothing else. -/
theorem writes_modify_scopes {f : Scopes → Scopes} {x : Run α}
    (hrun : ∀ m, (x m).2 = { m with scopes := f m.scopes })
    (halike : ∀ s : Scopes, s.Alike k.Related s → (f s).Alike k.Related (f s))
    (hchange : ∀ s : Scopes, s.Change part.top (f s))
    (hnames : ∀ (s : Scopes) (name : String), (∀ n, k.nodes n → n.form ≠ .reassign name) → ∀ i,
      (part = .statement → i ≠ s.current) → (f s).bindingAt i name = s.bindingAt i name) :
    Writes k part (fun _ => True) x := by
  intro m hm
  rw [hrun m]
  refine ⟨⟨halike _ hm.scopes, hm.tables, hm.fresh⟩, ?_, fun _ _ => trivial⟩
  exact ⟨fun _ => hchange _, fun name hname i _ => hnames _ name hname i, fun _ _ _ => rfl⟩

/-- Changing the scopes and saying whether it worked, or failing if it did not, leaves the scopes as they
were changed. -/
theorem update_scopes_apply (f : Scopes → Bool × Scopes) (line : Nat) (e : RuntimeError)
    (m : Machine) :
    ((do
      let found ← Action.update fun m => ((f m.scopes).1, { m with scopes := (f m.scopes).2 })
      if found then pure () else failAt line e : Run Unit) m).2 =
        { m with scopes := (f m.scopes).2 } := by
  rw [Action.bind_apply, Action.update_apply]
  rcases (f m.scopes).1 with - | -
  · rfl
  · rfl

section Values

variable {v : Value} (hv : k.Related v v)

include hv

theorem writes_define (name : String) :
    Writes k .statement (fun _ => True) (define name v) := by
  refine writes_modify_scopes (fun _ => rfl) (fun s hs => hs.define name hv) (fun s => ?_) ?_
  · exact s.change_define name v
  · intro s other _ i hi
    exact Scopes.bindingAt_define v (hi rfl)

theorem writes_reassign {place : Place} {line : Nat} {name : String}
    (hnode : k.nodes ⟨place, line, .reassign name⟩) :
    Writes k .statement (fun _ => True) (reassign line name v) := by
  refine writes_modify_scopes (f := fun s => (s.reassign name v).2)
    (update_scopes_apply (fun s => s.reassign name v) line _) (fun s hs => (hs.reassign name hv).2)
    (fun s => ?_) ?_
  · exact (s.change_reassign name v).mono Frame.Kept.grown
  · intro s other hother i _
    -- there is a node for the name that is overwritten, so it is not the name in question
    apply Scopes.bindingAt_reassign
    rintro rfl
    exact hother _ hnode rfl

theorem writes_setResult (line : Nat) :
    Writes k .statement (fun _ => True) (setResult line v) := by
  refine writes_modify_scopes (f := fun s => (s.setResult v).2)
    (update_scopes_apply (fun s => s.setResult v) line _) (fun s hs => (hs.setResult hv).2)
    (fun s => ?_) ?_
  · exact s.change_setResult v
  · intro s other _ i _
    exact Scopes.bindingAt_setResult v

end Values

theorem writes_result : Writes k part (fun v => k.Related v v) result := by
  refine writes_of_same (fun _ => rfl) fun m hm v hv => ?_
  cases hv
  show k.Related (m.scopes.result?.getD .null) (m.scopes.result?.getD .null)
  have hresult := hm.scopes.result?
  generalize m.scopes.result? = r at hresult ⊢
  cases hresult with
  | none => exact .null
  | some hrelated => exact hrelated

/-! ### Tables -/

theorem writes_newTable : Writes k part (fun t => k.known t ∧ k.fresh t) newTable := by
  intro m hm
  obtain ⟨-, hknown, htables⟩ := hm.tables.create
  have hsize : (m.tables.create.2).contents.size = m.tables.contents.size + 1 := by
    simp [Tables.create]
  refine ⟨⟨hm.scopes, htables, fun t ht => hm.fresh t ?_⟩, ?_, fun t ht => ?_⟩
  · have ht : m.tables.create.2.contents.size ≤ t.index := ht
    omega
  · refine ⟨fun _ => .refl _, fun _ _ _ _ _ => rfl, fun _ t ht => ?_⟩
    have hlt : t.index < m.tables.contents.size := Nat.lt_of_not_le fun hle => ht (hm.fresh t hle)
    show m.tables.create.2.table t = m.tables.table t
    simp only [Tables.create, Tables.table, Array.getD_eq_getD_getElem?, Array.getElem?_push]
    rw [if_neg (Nat.ne_of_lt hlt)]
  · cases ht
    cases hknown with
    | table hknown => exact ⟨hknown, hm.fresh _ (Nat.le_refl _)⟩

theorem writes_getEntry {t : TableId} (ht : k.known t) (key : Key) :
    Writes k part (fun v => k.Related v v) (getEntry t key) := by
  refine writes_of_same (fun _ => rfl) fun m hm v hv => ?_
  cases hv
  exact hm.tables.get .null (.table ht) key

/-- An entry may be put into a fresh table, and into any table if there is a node for that. -/
theorem writes_setEntry {t : TableId} {v : Value} (hv : k.Related v v)
    (ht : (∀ n, k.nodes n → n.form ≠ .store) → k.fresh t) (key : Key) :
    Writes k part (fun _ => True) (setEntry t key v) := by
  intro m hm
  refine ⟨⟨hm.scopes, hm.tables.insert t key hv, fun u hu => hm.fresh u ?_⟩, ?_, fun _ _ => trivial⟩
  · simpa [setEntry, Tables.insert] using hu
  · refine ⟨fun _ => .refl _, fun _ _ _ _ _ => rfl, fun hstore u hu => ?_⟩
    have hlt : u.index < m.tables.contents.size := Nat.lt_of_not_le fun hle => hu (hm.fresh u hle)
    have hne : t ≠ u := by
      rintro rfl
      exact hu (ht hstore)
    show (m.tables.insert t key v).table u = m.tables.table u
    rw [Tables.table_insert t key v hlt, if_neg hne]

/-! ### Frames, calls and files -/

theorem Writes.inFrame {x : Run α} (hx : Writes k .statement P x) :
    Writes k .expression P (inFrame .block x) := by
  intro m hm
  have hentered : (enterFrame .block m).Confined k := ⟨hm.scopes.push .block, hm.tables, hm.fresh⟩
  obtain ⟨hm₁, heffect, hvalue⟩ := hx _ hentered
  exact ⟨⟨hm₁.scopes.pop, hm₁.tables, hm₁.fresh⟩, heffect.closed rfl rfl rfl rfl, hvalue⟩

theorem Writes.inCall {x : Run α} (hx : Writes k .statement P x) (line : Nat) :
    Writes k .expression P (inCall line x) := by
  intro m hm
  rw [inCall_apply]
  split
  · exact writes_failAt line _ m hm
  · have hentered : (enterCall m).Confined k :=
      ⟨hm.scopes.push (.function .null), hm.tables, hm.fresh⟩
    obtain ⟨hm₁, heffect, hvalue⟩ := hx _ hentered
    exact ⟨⟨hm₁.scopes.pop, hm₁.tables, hm₁.fresh⟩, heffect.closed rfl rfl rfl rfl, hvalue⟩

theorem Writes.inFile {x : Run α} (hx : Writes k part P x) (file : Option String) :
    Writes k part P (inFile file x) := by
  intro m hm
  obtain ⟨mark, left, -, hrun⟩ := inFile_cases file x m
  have hentered : Machine.Confined k { m with file } := ⟨hm.scopes, hm.tables, hm.fresh⟩
  obtain ⟨hm₁, heffect, hvalue⟩ := hx _ hentered
  refine ⟨?_, ?_, fun a ha => hvalue a (ok_of_inFile ha)⟩
  · rw [hrun]
    exact ⟨hm₁.scopes, hm₁.tables, hm₁.fresh⟩
  · rw [hrun]
    exact ⟨heffect.scopes, heffect.names, heffect.tables⟩

/-! ### Programs -/

/-- A value that is the same but for positions, with the same positions, is the same. -/
theorem related_self (hid : k.relabeling = .id) {v v' : Value} (h : k.Related v v') :
    k.Related v v := by
  cases h with
  | number x => exact .number x
  | text s => exact .text s
  | bool b => exact .bool b
  | null => exact .null
  | @function f f' hf =>
    refine .function ⟨?_, hf.2⟩
    rw [hid, f.relabel_id]
  | table ht => exact .table ht

/-- What one run writes is a relation that evaluation keeps. -/
theorem parametric_writes (hid : k.relabeling = .id) :
    Parametric k fun part _ A x _ => Writes k part (fun a => ∃ a', A a a') x where
  weaken := Writes.weaken
  pure {_ _ _ _ a'} ha := writes_of_same (fun _ => rfl) fun _ _ b hb => by
    cases hb
    exact ⟨a', ha⟩
  bind hx hf := Writes.bind hx fun a ⟨a', ha⟩ => hf a a' ha
  outOfFuel _ := writes_of_same (fun _ => rfl) fun _ _ _ => nofun
  failAt _ e := writes_failAt _ e
  lookup _ name := (writes_lookup _ name).mono fun v hv => ⟨v, hv⟩
  define name _ _ hv := (writes_define (related_self hid hv) name).mono fun _ _ => ⟨(), trivial⟩
  reassign hline hv := by
    obtain ⟨⟨_, hnode⟩, -⟩ := hline
    exact (writes_reassign (related_self hid hv) hnode).mono fun _ _ => ⟨(), trivial⟩
  setResult _ hv := (writes_setResult (related_self hid hv) _).mono fun _ _ => ⟨(), trivial⟩
  result := writes_result.mono fun v hv => ⟨v, hv⟩
  newTable := writes_newTable.mono fun t ht => ⟨t, rfl, ht⟩
  getEntry ht key := (writes_getEntry ht key).mono fun v hv => ⟨v, hv⟩
  setFresh ht key _ _ hv :=
    (writes_setEntry (related_self hid hv) (fun _ => ht) key).mono fun _ _ => ⟨(), trivial⟩
  store hline t key _ _ hv := by
    obtain ⟨⟨_, hnode⟩, -⟩ := hline
    refine (writes_setEntry (related_self hid hv) (fun hstore => ?_) key).mono fun _ _ => ⟨(), trivial⟩
    exact absurd rfl (hstore _ hnode)
  inFrame := Writes.inFrame
  inCall _ hx := hx.inCall _
  inFile _ hx := hx.inFile _

end Run

/-! ### The code that a run can meet -/

/-- A node of the form stands in the code, or in a function that the machine leads to. -/
def Machine.Meets (m : Machine) (code : List Node) (form : Form) : Prop :=
  (∃ n ∈ code, n.form = form) ∨ ∃ f, m.Reaches (.function f) ∧ ∃ n ∈ f.nodes, n.form = form

/-- The code and the functions that the machine leads to are all the code there is, and the tables that it
has are the tables that are not fresh. -/
def Comparison.ofCode (m : Machine) (code : List Node) : Comparison where
  nodes n := n ∈ code ∨ ∃ f, m.Reaches (.function f) ∧ n ∈ f.nodes
  known := m.Known
  fresh t := m.tables.contents.size ≤ t.index

theorem Machine.confined_ofCode (m : Machine) (code : List Node) :
    m.Confined (Comparison.ofCode m code) := by
  obtain ⟨hscopes, htables⟩ := m.alike_self_of_reaches (F := fun f f' =>
    f' = f.relabel .id () ∧ f.Within (Comparison.ofCode m code).nodes) fun f hf =>
      ⟨f.relabel_id.symm, fun n hn => .inr ⟨f, hf, hn⟩⟩
  exact ⟨hscopes, htables, fun _ => id⟩

theorem Machine.form_ne_of_not_meets {m : Machine} {code : List Node} {form : Form}
    (h : ¬ m.Meets code form) (n : Node) (hn : (Comparison.ofCode m code).nodes n) :
    n.form ≠ form := by
  rintro rfl
  rcases hn with hn | ⟨f, hf, hn⟩
  · exact h (.inl ⟨n, hn, rfl⟩)
  · exact h (.inr ⟨f, hf, n, hn, rfl⟩)

namespace Run

/-- **Only the forms of assignment that are meant for it write outside of the current frame.**  Evaluate
an expression or a statement, to any end.  A name for which no code that can be met has an assignment that
overwrites it is bound as before in every frame that was open, except in the current one if the code is a
statement.  If no code that can be met assigns to a place in a table, then every table that was there has
the same entries. -/
theorem write_footprint (m : Machine) (fuel : Nat) (place : Place) :
    (∀ e : Expr,
      (∀ name, ¬ m.Meets (e.nodes place) (.reassign name) → ∀ i < m.scopes.depth,
        (eval fuel e m).2.scopes.bindingAt i name = m.scopes.bindingAt i name) ∧
      (¬ m.Meets (e.nodes place) .store → ∀ t : TableId, t.index < m.tables.contents.size →
        (eval fuel e m).2.tables.table t = m.tables.table t)) ∧
    ∀ s : Stmt,
      (∀ name, ¬ m.Meets (s.nodes place) (.reassign name) → ∀ i < m.scopes.depth,
        i ≠ m.scopes.current →
          (exec fuel s m).2.scopes.bindingAt i name = m.scopes.bindingAt i name) ∧
      (¬ m.Meets (s.nodes place) .store → ∀ t : TableId, t.index < m.tables.contents.size →
        (exec fuel s m).2.tables.table t = m.tables.table t) := by
  refine ⟨fun e => ?_, fun s => ?_⟩
  · have hwrites := ((parametric_writes (k := .ofCode m (e.nodes place)) rfl).eval_exec fuel).1 place e
      fun n hn => .inl hn
    obtain ⟨-, heffect, -⟩ := hwrites m (m.confined_ofCode _)
    refine ⟨fun name hname i hi => ?_, fun hstore t ht => ?_⟩
    · exact heffect.names name (Machine.form_ne_of_not_meets hname) i hi nofun
    · exact heffect.tables (Machine.form_ne_of_not_meets hstore) t (Nat.not_le_of_lt ht)
  · have hwrites := ((parametric_writes (k := .ofCode m (s.nodes place)) rfl).eval_exec fuel).2 place s
      fun n hn => .inl hn
    obtain ⟨-, heffect, -⟩ := hwrites m (m.confined_ofCode _)
    refine ⟨fun name hname i hi hcurrent => ?_, fun hstore t ht => ?_⟩
    · exact heffect.names name (Machine.form_ne_of_not_meets hname) i hi fun _ => hcurrent
    · exact heffect.tables (Machine.form_ne_of_not_meets hstore) t (Nat.not_le_of_lt ht)

/-- A function that binds `y`, overwrites `z`, and fails. -/
def overwritesZ : Routine :=
  .mk 1 1 none [] (.mk 1 [.assign 1 .define (.var 1 "y") (.table 1 []),
    .assign 2 .reassign (.var 2 "z") (.text 2 "new"), .expr 3 (.var 3 "x")])

/-- A machine with that function, and with a table that holds it. -/
def holdingOverwriter : Machine where
  scopes := ((Scopes.fresh.define "f" (.function overwritesZ)).define "y" (.table ⟨0⟩)).define "z"
    (.text "old")
  tables := ⟨#[⟨[(.text "f", .function overwritesZ)]⟩]⟩

/-- Calling the function overwrites `z`.  It does not touch `y`, which is no name that it overwrites, nor
the table. -/
theorem write_footprint_holdingOverwriter :
    (¬ holdingOverwriter.Meets ((Expr.call 1 (.var 1 "f") []).nodes ⟨none, false⟩) (.reassign "y") ∧
      ¬ holdingOverwriter.Meets ((Expr.call 1 (.var 1 "f") []).nodes ⟨none, false⟩) .store) ∧
    (eval 6 (.call 1 (.var 1 "f") []) holdingOverwriter).2.scopes.bindingAt 0 "z" =
      some (some (.text "new")) ∧
    (eval 6 (.call 1 (.var 1 "f") []) holdingOverwriter).2.scopes.bindingAt 0 "y" =
      holdingOverwriter.scopes.bindingAt 0 "y" ∧
    (eval 6 (.call 1 (.var 1 "f") []) holdingOverwriter).2.tables.table ⟨0⟩ =
      holdingOverwriter.tables.table ⟨0⟩ := by
  have honly : ∀ v, holdingOverwriter.Reaches v →
      v = .function overwritesZ ∨ v = .table ⟨0⟩ ∨ v = .text "old" := by
    intro v hv
    induction hv with
    | bound hframe hname =>
      obtain rfl := List.mem_singleton.1 (Array.mem_toList_iff.2 hframe)
      have hcases : (_, _) ∈ [("f", Value.function overwritesZ), ("y", .table ⟨0⟩), ("z", .text "old")] :=
        hname
      simp only [List.mem_cons, List.not_mem_nil, or_false, Prod.mk.injEq] at hcases
      rcases hcases with ⟨-, rfl⟩ | ⟨-, rfl⟩ | ⟨-, rfl⟩
      · exact .inl rfl
      · exact .inr (.inl rfl)
      · exact .inr (.inr rfl)
    | result hframe hkind =>
      obtain rfl := List.mem_singleton.1 (Array.mem_toList_iff.2 hframe)
      cases hkind
    | @entry t k v _ hentry ih =>
      rcases ih with ih | ih | ih
      · cases ih
      · cases ih
        exact .inl (congrArg Prod.snd (List.mem_singleton.1 hentry))
      · cases ih
  have hfunction : ∀ f, holdingOverwriter.Reaches (.function f) → f = overwritesZ := by
    intro f hf
    rcases honly _ hf with h | h | h
    · exact Value.function.inj h
    · cases h
    · cases h
  have hmeets : ∀ form, (∀ n ∈ (Expr.call 1 (.var 1 "f") []).nodes ⟨none, false⟩, n.form ≠ form) →
      (∀ n ∈ overwritesZ.nodes, n.form ≠ form) →
        ¬ holdingOverwriter.Meets ((Expr.call 1 (.var 1 "f") []).nodes ⟨none, false⟩) form := by
    rintro form hcode hbody (⟨n, hn, hform⟩ | ⟨f, hf, n, hn, hform⟩)
    · exact hcode n hn hform
    · rw [hfunction f hf] at hn
      exact hbody n hn hform
  have hname := hmeets (.reassign "y") (by decide) (by decide)
  have hstore := hmeets .store (by decide) (by decide)
  obtain ⟨hnames, htables⟩ :=
    (write_footprint holdingOverwriter 6 ⟨none, false⟩).1 (.call 1 (.var 1 "f") [])
  exact ⟨⟨hname, hstore⟩, by with_unfolding_all rfl, hnames "y" hname 0 (by decide),
    htables hstore ⟨0⟩ (by decide)⟩

end Run

end TableScript
