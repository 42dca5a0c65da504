import VersionedTables.Command
import VersionedTables.Proofs.Material

/-!
# Reasoning about edits

An edit reads and writes a workspace and may be refused. Two judgements about edits carry all proofs
about commands:

* `Edit.Yields e w Q` — run on `w`, the edit `e` is *not* refused, and what it gives back and leaves
  behind satisfies `Q`. It is a weakest precondition for total correctness: each way to build an
  edit has an equation (`yields_bind` and its companions), so `simp` can execute an edit
  symbolically. An edit is accepted on `w` just when it yields `fun _ _ => True`.
* `Edit.Makes m e Q` — whether `e` is refused or not, all it does to the transaction is to try writes
  that are made of `m`, identifiers are only ever drawn, and what it gives back satisfies `Q`. Every
  command makes what it writes of what it was given, which is what makes a refused command leave no
  trace, and what keeps everything in a store readable. Without the material it is `Edit.Journaled`.
-/

namespace VersionedTables

/-! ## Supplies -/

namespace Supply

/-- An identifier has been drawn. -/
def Drawn (a : Supply) (text : String) : Prop :=
  ∃ n, n < a.drawn ∧ a.ids n = text

/-- A supply some identifiers and readings later. -/
structure Later (a b : Supply) : Prop where
  ids : b.ids = a.ids
  clock : b.clock = a.clock
  drawn : a.drawn ≤ b.drawn

/-- An identifier was drawn between the two moments. -/
def Between (a b : Supply) (text : String) : Prop :=
  ¬a.Drawn text ∧ b.Drawn text

variable {a b c : Supply}

theorem Later.refl (a : Supply) : a.Later a :=
  ⟨rfl, rfl, Nat.le_refl _⟩

theorem Later.trans (hab : a.Later b) (hbc : b.Later c) : a.Later c :=
  ⟨hbc.ids.trans hab.ids, hbc.clock.trans hab.clock, Nat.le_trans hab.drawn hbc.drawn⟩

theorem Later.drawn_of (h : a.Later b) {text : String} (hdrawn : a.Drawn text) : b.Drawn text := by
  obtain ⟨n, hn, htext⟩ := hdrawn
  exact ⟨n, Nat.lt_of_lt_of_le hn h.drawn, by rw [h.ids, htext]⟩

theorem Later.distinct (h : a.Later b) (hdistinct : a.Distinct) : b.Distinct := by
  intro m n hmn
  rw [h.ids] at hmn
  exact hdistinct m n hmn

theorem Between.later (h : a.Between b text) (hbc : b.Later c) : a.Between c text :=
  ⟨h.1, hbc.drawn_of h.2⟩

theorem Between.earlier (hab : a.Later b) (h : b.Between c text) : a.Between c text :=
  ⟨fun hdrawn => h.1 (hab.drawn_of hdrawn), h.2⟩

/-- The identifier that is drawn next has not been drawn before. -/
theorem between_drawId (h : a.Distinct) (kind : IdKind) :
    a.Between (a.drawId kind).2 (a.drawId kind).1.text := by
  refine ⟨?_, ?_⟩
  · rintro ⟨n, hn, htext⟩
    obtain rfl := h _ _ htext
    exact Nat.lt_irrefl _ hn
  · exact ⟨a.drawn, Nat.lt_succ_self _, rfl⟩

theorem later_drawId (kind : IdKind) : a.Later (a.drawId kind).2 :=
  ⟨rfl, rfl, Nat.le_succ _⟩

theorem later_readClock : a.Later a.readClock.2 :=
  ⟨rfl, rfl, Nat.le_refl _⟩

end Supply

/-- The store of a workspace, as it is now. -/
abbrev Workspace.store (w : Workspace) : Store :=
  w.transaction.store

namespace Edit

variable {α β : Type} {w : Workspace}

/-- What an edit gives back, or why it was refused, and what it leaves behind. -/
def outcome (e : Edit α) (w : Workspace) : Except CommandFault α × Workspace :=
  e.run.run w

/-! ## Weakest preconditions -/

/-- An edit is not refused, and ends in what is asked for. -/
def Yields (e : Edit α) (w : Workspace) (Q : α → Workspace → Prop) : Prop :=
  ∃ value w', e.outcome w = (.ok value, w') ∧ Q value w'

theorem Yields.imp {e : Edit α} {Q R : α → Workspace → Prop} (h : e.Yields w Q)
    (himp : ∀ value w', Q value w' → R value w') : e.Yields w R := by
  obtain ⟨value, w', hrun, hQ⟩ := h
  exact ⟨value, w', hrun, himp _ _ hQ⟩

theorem yields_congr {e : Edit α} {Q R : α → Workspace → Prop}
    (h : ∀ value w', Q value w' ↔ R value w') : e.Yields w Q ↔ e.Yields w R :=
  ⟨fun hQ => hQ.imp fun _ _ => (h _ _).mp, fun hR => hR.imp fun _ _ => (h _ _).mpr⟩

/-- An edit has one outcome: what is known of it in two ways holds of it together. -/
theorem Yields.and {e : Edit α} {Q R : α → Workspace → Prop} (hQ : e.Yields w Q)
    (hR : e.Yields w R) : e.Yields w fun value w' => Q value w' ∧ R value w' := by
  obtain ⟨value, w', hrun, hQ⟩ := hQ
  obtain ⟨value', w'', hrun', hR⟩ := hR
  obtain ⟨rfl, rfl⟩ : value = value' ∧ w' = w'' := by
    rw [hrun] at hrun'
    simpa using hrun'
  exact ⟨value, w', hrun, hQ, hR⟩

@[simp] theorem yields_pure {value : α} {Q : α → Workspace → Prop} :
    (pure value : Edit α).Yields w Q ↔ Q value w := by
  refine ⟨?_, ?_⟩
  · rintro ⟨value', w', hrun, hQ⟩
    obtain ⟨rfl, rfl⟩ : value = value' ∧ w = w' := by simpa using show (_, _) = _ from hrun
    exact hQ
  · exact fun hQ => ⟨value, w, rfl, hQ⟩

@[simp] theorem not_yields_throw {fault : CommandFault} {Q : α → Workspace → Prop} :
    ¬(throw fault : Edit α).Yields w Q := by
  rintro ⟨value, w', hrun, -⟩
  cases show (Except.error fault, w) = _ from hrun

theorem outcome_bind (e : Edit α) (f : α → Edit β) (w : Workspace) :
    (e >>= f).outcome w =
      match e.outcome w with
      | (.ok value, w') => (f value).outcome w'
      | (.error fault, w') => (.error fault, w') := by
  rcases he : e.outcome w with ⟨fault | value, w'⟩ <;>
    simp only [outcome, ExceptT.run_bind, StateT.run_bind] at he ⊢ <;> rw [he] <;> rfl

@[simp] theorem yields_bind {e : Edit α} {f : α → Edit β} {Q : β → Workspace → Prop} :
    (e >>= f).Yields w Q ↔ e.Yields w fun value w' => (f value).Yields w' Q := by
  refine ⟨?_, ?_⟩
  · rintro ⟨value, w', hrun, hQ⟩
    rw [outcome_bind] at hrun
    rcases he : e.outcome w with ⟨_ | value₁, w₁⟩ <;> rw [he] at hrun
    · cases hrun
    · exact ⟨value₁, w₁, he, value, w', hrun, hQ⟩
  · rintro ⟨value₁, w₁, he, value, w', hrun, hQ⟩
    refine ⟨value, w', ?_, hQ⟩
    rw [outcome_bind, he]
    exact hrun

@[simp] theorem yields_map {e : Edit α} {f : α → β} {Q : β → Workspace → Prop} :
    (f <$> e).Yields w Q ↔ e.Yields w fun value w' => Q (f value) w' := by
  rw [← bind_pure_comp, yields_bind]
  simp only [yields_pure]

@[simp] theorem yields_ite {c : Prop} [Decidable c] {e f : Edit α} {Q : α → Workspace → Prop} :
    (if c then e else f).Yields w Q ↔ if c then e.Yields w Q else f.Yields w Q := by
  split <;> rfl

/-! ### Primitive edits -/

@[simp] theorem yields_store {Q : Store → Workspace → Prop} :
    store.Yields w Q ↔ Q w.store w := by
  refine ⟨?_, ?_⟩
  · rintro ⟨value, w', hrun, hQ⟩
    obtain ⟨rfl, rfl⟩ : w.store = value ∧ w = w' := by
      simpa using show (Except.ok w.store, w) = _ from hrun
    exact hQ
  · exact fun hQ => ⟨_, w, rfl, hQ⟩

@[simp] theorem yields_freshId {kind : IdKind} {Q : Id kind → Workspace → Prop} :
    (freshId kind).Yields w Q ↔
      Q (w.supply.drawId kind).1 { w with supply := (w.supply.drawId kind).2 } := by
  refine ⟨?_, ?_⟩
  · rintro ⟨value, w', hrun, hQ⟩
    obtain ⟨rfl, rfl⟩ : _ = value ∧ _ = w' := by
      simpa using show (Except.ok (w.supply.drawId kind).1,
        ({ w with supply := (w.supply.drawId kind).2 } : Workspace)) = _ from hrun
    exact hQ
  · exact fun hQ => ⟨_, _, rfl, hQ⟩

@[simp] theorem yields_now {Q : Instant → Workspace → Prop} :
    now.Yields w Q ↔ Q w.supply.readClock.1 { w with supply := w.supply.readClock.2 } := by
  refine ⟨?_, ?_⟩
  · rintro ⟨value, w', hrun, hQ⟩
    obtain ⟨rfl, rfl⟩ : _ = value ∧ _ = w' := by
      simpa using show (Except.ok w.supply.readClock.1,
        ({ w with supply := w.supply.readClock.2 } : Workspace)) = _ from hrun
    exact hQ
  · exact fun hQ => ⟨_, _, rfl, hQ⟩

theorem outcome_write (f : Transaction → Except StoreFault Transaction) (w : Workspace) :
    (write f).outcome w =
      match f w.transaction with
      | .ok transaction => (.ok (), { w with transaction })
      | .error fault => (.error (.store fault), w) := by
  change (match f w.transaction with
    | .ok transaction => _
    | .error fault => _ : Edit Unit).outcome w = _
  rcases f w.transaction with fault | transaction <;> rfl

@[simp] theorem yields_write {f : Transaction → Except StoreFault Transaction}
    {Q : Unit → Workspace → Prop} :
    (write f).Yields w Q ↔ ∃ t, f w.transaction = .ok t ∧ Q () { w with transaction := t } := by
  rw [Yields, outcome_write]
  rcases f w.transaction with fault | transaction
  · simp
  · refine ⟨?_, ?_⟩
    · rintro ⟨_, _, hrun, hQ⟩
      cases hrun
      exact ⟨_, rfl, hQ⟩
    · rintro ⟨_, hok, hQ⟩
      cases hok
      exact ⟨_, _, rfl, hQ⟩

theorem outcome_take (f : Transaction → Except StoreFault (α × Transaction)) (w : Workspace) :
    (take f).outcome w =
      match f w.transaction with
      | .ok (value, transaction) => (.ok value, { w with transaction })
      | .error fault => (.error (.store fault), w) := by
  change (match f w.transaction with
    | .ok (value, transaction) => _
    | .error fault => _ : Edit α).outcome w = _
  rcases f w.transaction with fault | ⟨value, transaction⟩ <;> rfl

@[simp] theorem yields_take {f : Transaction → Except StoreFault (α × Transaction)}
    {Q : α → Workspace → Prop} :
    (take f).Yields w Q ↔
      ∃ value t, f w.transaction = .ok (value, t) ∧ Q value { w with transaction := t } := by
  rw [Yields, outcome_take]
  rcases f w.transaction with fault | ⟨value, transaction⟩ <;> simp

@[simp] theorem yields_change {f : Transaction → Transaction} {Q : Unit → Workspace → Prop} :
    (change f).Yields w Q ↔ Q () { w with transaction := f w.transaction } := by
  refine ⟨?_, ?_⟩
  · rintro ⟨value, w', hrun, hQ⟩
    obtain ⟨rfl, rfl⟩ : () = value ∧ _ = w' := by
      simpa using show (Except.ok (), ({ w with transaction := f w.transaction } : Workspace)) = _
        from hrun
    exact hQ
  · exact fun hQ => ⟨_, _, rfl, hQ⟩

@[simp] theorem yields_parseName {ν : Type} {parse : String → Except NameFault ν} {text : String}
    {Q : ν → Workspace → Prop} :
    (parseName parse text).Yields w Q ↔ ∃ name, parse text = .ok name ∧ Q name w := by
  rw [parseName]
  rcases parse text with cause | name <;> simp

@[simp] theorem yields_orFault {fault : CommandFault} {o : Option α} {Q : α → Workspace → Prop} :
    (orFault fault o).Yields w Q ↔ ∃ value, o = some value ∧ Q value w := by
  rcases o with _ | value <;> simp [orFault]

@[simp] theorem yields_liftExcept {e : Except CommandFault α} {Q : α → Workspace → Prop} :
    (liftExcept e : Edit α).Yields w Q ↔ ∃ value, e = .ok value ∧ Q value w := by
  rcases e with fault | value
  · simp [liftExcept]
  · simp [liftExcept]

/-! ### Loops -/

@[simp] theorem yields_forM_nil {f : α → Edit Unit} {Q : Unit → Workspace → Prop} :
    (forM ([] : List α) f).Yields w Q ↔ Q () w := by
  rw [List.forM_nil, yields_pure]

@[simp] theorem yields_forM_cons {first : α} {rest : List α} {f : α → Edit Unit}
    {Q : Unit → Workspace → Prop} :
    (forM (first :: rest) f).Yields w Q ↔
      (f first).Yields w fun _ w' => (forM rest f).Yields w' Q := by
  rw [List.forM_cons, yields_bind]

@[simp] theorem yields_mapM_nil {f : α → Edit β} {Q : List β → Workspace → Prop} :
    (([] : List α).mapM f).Yields w Q ↔ Q [] w := by
  rw [List.mapM_nil, yields_pure]

@[simp] theorem yields_mapM_cons {first : α} {rest : List α} {f : α → Edit β}
    {Q : List β → Workspace → Prop} :
    ((first :: rest).mapM f).Yields w Q ↔
      (f first).Yields w fun value w₁ =>
        (rest.mapM f).Yields w₁ fun values w₂ => Q (value :: values) w₂ := by
  rw [List.mapM_cons]
  simp only [yields_bind, yields_pure]

/-- A loop that collects values collects as many as there are items. -/
theorem Yields.mapM_length {f : α → Edit β} {items : List α} {Q : List β → Workspace → Prop}
    (h : (items.mapM f).Yields w Q) :
    (items.mapM f).Yields w fun values w' => values.length = items.length ∧ Q values w' := by
  induction items generalizing w Q with
  | nil => exact yields_mapM_nil.mpr ⟨rfl, yields_mapM_nil.mp h⟩
  | cons first rest ih =>
    refine yields_mapM_cons.mpr ((yields_mapM_cons.mp h).imp fun value w₁ hrest => ?_)
    exact (ih hrest).imp fun values w₂ ⟨hlength, hQ⟩ => ⟨congrArg (· + 1) hlength, hQ⟩

/-- Filtering collects what it keeps in an accumulator, the last first. -/
theorem yields_filterAuxM {f : α → Edit Bool} (items kept : List α)
    {Q : List α → Workspace → Prop} :
    (items.filterAuxM f kept).Yields w Q ↔
      (items.filterM f).Yields w fun values w' => Q (values.reverse ++ kept) w' := by
  induction items generalizing w kept Q with
  | nil => simp [List.filterM]
  | cons first rest ih =>
    rw [List.filterM]
    simp only [List.filterAuxM, yields_bind, yields_pure]
    refine yields_congr fun value w₁ => ?_
    rw [ih, ih]
    cases value <;> simp

@[simp] theorem yields_filterM_nil {f : α → Edit Bool} {Q : List α → Workspace → Prop} :
    (([] : List α).filterM f).Yields w Q ↔ Q [] w := by
  simp [List.filterM]

@[simp] theorem yields_filterM_cons {first : α} {rest : List α} {f : α → Edit Bool}
    {Q : List α → Workspace → Prop} :
    ((first :: rest).filterM f).Yields w Q ↔
      (f first).Yields w fun kept w₁ =>
        (rest.filterM f).Yields w₁ fun values w₂ =>
          Q (if kept then first :: values else values) w₂ := by
  rw [List.filterM]
  simp only [List.filterAuxM, yields_bind, yields_pure]
  refine yields_congr fun value w₁ => ?_
  rw [yields_filterAuxM]
  cases value <;> simp

/-! ## What edits write -/

end Edit

/-- A workspace is made of what its store is made of and what its clock shows. -/
structure Workspace.MadeOf (m : Material) (w : Workspace) : Prop where
  store : w.store.MadeOf m
  clock : ∀ n, m.time (w.supply.clock n)

theorem Workspace.MadeOf.everything (w : Workspace) : w.MadeOf .everything :=
  ⟨.everything _, fun _ => trivial⟩

namespace Edit

variable {m : Material}

/-- What an edit makes of a workspace: some writes were tried, all made of the material, and the
supply has only moved on. -/
structure Made (m : Material) (w w' : Workspace) : Prop where
  writes : ∃ writes : List Write, (∀ write ∈ writes, write.MadeOf m) ∧
    w'.transaction = w.transaction.attemptAll writes
  later : w.supply.Later w'.supply

theorem Made.refl (w : Workspace) : Made m w w :=
  ⟨⟨[], by simp, rfl⟩, .refl _⟩

theorem Made.trans {w₁ w₂ w₃ : Workspace} (h : Made m w₁ w₂) (h' : Made m w₂ w₃) :
    Made m w₁ w₃ := by
  obtain ⟨⟨first, hfirst, heq⟩, hlater⟩ := h
  obtain ⟨⟨second, hsecond, heq'⟩, hlater'⟩ := h'
  refine ⟨⟨first ++ second, ?_, ?_⟩, hlater.trans hlater'⟩
  · intro write hmem
    rcases List.mem_append.mp hmem with hmem | hmem
    · exact hfirst write hmem
    · exact hsecond write hmem
  · rw [heq', heq, Transaction.attemptAll_append]

/-- A workspace stays made of what it is made of. -/
theorem Made.madeOf {w w' : Workspace} (h : Made m w w') (hw : w.MadeOf m) : w'.MadeOf m := by
  obtain ⟨⟨writes, hwrites, heq⟩, hlater⟩ := h
  refine ⟨?_, fun n => ?_⟩
  · rw [Workspace.store, heq]
    exact hw.store.attemptAll hwrites
  · rw [hlater.clock]
    exact hw.clock n

/-- One write was tried. -/
theorem Made.write {w : Workspace} {t : Transaction} {x : Write} (hx : x.MadeOf m)
    (hok : w.transaction.perform x = .ok t) : Made m w { w with transaction := t } := by
  refine ⟨⟨[x], ?_, (Transaction.attempt_of_ok hok).symm⟩, .refl _⟩
  intro write hmem
  rw [List.mem_singleton] at hmem
  rwa [hmem]

/-- What an edit made can be rolled back like what it found. -/
theorem Made.reverts {w w' : Workspace} (h : Made m w w') {s : Store}
    (hreverts : w.transaction.Reverts s) : w'.transaction.Reverts s := by
  obtain ⟨⟨writes, -, heq⟩, -⟩ := h
  rw [heq]
  exact hreverts.attemptAll writes

/-- What an edit made of an intact store is intact. -/
theorem Made.intact {w w' : Workspace} (h : Made m w w') (hintact : w.store.Intact) :
    w'.store.Intact := by
  obtain ⟨⟨writes, -, heq⟩, -⟩ := h
  rw [Workspace.store, heq]
  exact hintact.attemptAll writes

/-- Refused or not, an edit tries writes that are made of the material, and it gives back what is
asked for. -/
def Makes (m : Material) (e : Edit α) (Q : α → Prop) : Prop :=
  ∀ ⦃w : Workspace⦄, w.MadeOf m →
    Made m w (e.outcome w).2 ∧ ∀ value, (e.outcome w).1 = .ok value → Q value

/-- Refused or not, all an edit does to the transaction is to try writes, and the supply only moves
on. -/
def Journaled (e : Edit α) : Prop :=
  ∀ w : Workspace, (∃ writes : List Write,
    (e.outcome w).2.transaction = w.transaction.attemptAll writes) ∧
      w.supply.Later (e.outcome w).2.supply

namespace Makes

theorem journaled {e : Edit α} {Q : α → Prop} (he : e.Makes .everything Q) : e.Journaled := by
  intro w
  obtain ⟨⟨⟨writes, -, heq⟩, hlater⟩, -⟩ := he (.everything w)
  exact ⟨⟨writes, heq⟩, hlater⟩

theorem imp {e : Edit α} {Q R : α → Prop} (he : e.Makes m Q) (himp : ∀ value, Q value → R value) :
    e.Makes m R := by
  intro w hw
  obtain ⟨hmade, hQ⟩ := he hw
  exact ⟨hmade, fun value hvalue => himp value (hQ value hvalue)⟩

/-- What an edit gives back need not be known. -/
theorem any {e : Edit α} {Q : α → Prop} (he : e.Makes m Q) : e.Makes m fun _ => True :=
  he.imp fun _ _ => trivial

theorem pure {value : α} {Q : α → Prop} (h : Q value) : (Pure.pure value : Edit α).Makes m Q := by
  refine fun w _ => ⟨.refl w, fun value' hvalue => ?_⟩
  obtain rfl : value = value' := Except.ok.inj hvalue
  exact h

theorem throw (fault : CommandFault) {Q : α → Prop} :
    (MonadExcept.throw fault : Edit α).Makes m Q := by
  intro w hw
  refine ⟨.refl w, ?_⟩
  rintro value ⟨⟩

theorem bind {e : Edit α} {f : α → Edit β} {Q : α → Prop} {R : β → Prop} (he : e.Makes m Q)
    (hf : ∀ value, Q value → (f value).Makes m R) : (e >>= f).Makes m R := by
  intro w hw
  obtain ⟨hfirst, hQ⟩ := he hw
  rw [outcome_bind]
  rcases hrun : e.outcome w with ⟨fault | value, w₁⟩ <;> rw [hrun] at hfirst hQ
  · refine ⟨hfirst, ?_⟩
    rintro value ⟨⟩
  · obtain ⟨hrest, hR⟩ := hf value (hQ value rfl) (hfirst.madeOf hw)
    exact ⟨hfirst.trans hrest, hR⟩

theorem map {e : Edit α} {Q : α → Prop} (he : e.Makes m Q) (f : α → β) :
    (f <$> e).Makes m fun _ => True := by
  rw [← bind_pure_comp]
  exact he.bind fun value _ => pure trivial

theorem ite {c : Prop} [Decidable c] {e f : Edit α} {Q : α → Prop} (he : e.Makes m Q)
    (hf : f.Makes m Q) : (if c then e else f).Makes m Q := by
  split
  · exact he
  · exact hf

/-- What would come behind a refusal does not matter. -/
theorem refuse (fault : CommandFault) (f : α → Edit β) {Q : β → Prop} :
    ((MonadExcept.throw fault : Edit α) >>= f).Makes m Q :=
  (throw (Q := fun _ => False) fault).bind fun _ hfalse => hfalse.elim

/-- A check that refuses, and an edit behind it. -/
theorem guard {c : Prop} [Decidable c] {fault : CommandFault} {f : α → Edit β} {e : Edit β}
    {Q : β → Prop} (he : e.Makes m Q) :
    (if c then (MonadExcept.throw fault >>= f) else e).Makes m Q :=
  ite (refuse fault f) he

theorem store : Edit.store.Makes m (·.MadeOf m) := by
  intro w hw
  refine ⟨.refl w, ?_⟩
  rintro - ⟨⟩
  exact hw.store

theorem freshId (kind : IdKind) : (Edit.freshId kind).Makes m fun _ => True :=
  fun _ _ => ⟨⟨⟨[], by simp, rfl⟩, Supply.later_drawId kind⟩, fun _ _ => trivial⟩

theorem now : Edit.now.Makes m m.time := by
  intro w hw
  refine ⟨⟨⟨[], by simp, rfl⟩, Supply.later_readClock⟩, ?_⟩
  rintro - ⟨⟩
  exact hw.clock _

theorem write (x : Write) (hx : x.MadeOf m) :
    (Edit.write (·.perform x)).Makes m fun _ => True := by
  intro w _
  rw [outcome_write]
  rcases hok : w.transaction.perform x with fault | t
  · exact ⟨.refl w, fun _ _ => trivial⟩
  · exact ⟨.write hx hok, fun _ _ => trivial⟩

/-- A write that gives something back. -/
theorem take {f : Transaction → Except StoreFault (α × Transaction)} (x : Write)
    (hf : ∀ t, (f t).map (·.2) = t.perform x) (hx : x.MadeOf m) :
    (Edit.take f).Makes m fun _ => True := by
  intro w _
  rw [outcome_take]
  rcases hok : f w.transaction with fault | ⟨value, t⟩
  · exact ⟨.refl w, fun _ _ => trivial⟩
  · refine ⟨.write hx ?_, fun _ _ => trivial⟩
    rw [← hf, hok]
    rfl

/-- A write that always succeeds. -/
theorem change {f : Transaction → Transaction} (x : Write)
    (hf : ∀ t : Transaction, t.perform x = .ok (f t)) (hx : x.MadeOf m) :
    (Edit.change f).Makes m fun _ => True :=
  fun w _ => ⟨.write hx (hf w.transaction), fun _ _ => trivial⟩

theorem parseName {ν : Type} (parse : String → Except NameFault ν) (text : String) :
    (Edit.parseName parse text).Makes m (parse text = .ok ·) := by
  rw [Edit.parseName]
  split
  · next heq => exact pure heq
  · exact throw _

theorem orFault (fault : CommandFault) (o : Option α) :
    (Edit.orFault fault o).Makes m (o = some ·) := by
  cases o with
  | some value => exact pure rfl
  | none => exact throw fault

theorem lift (e : Except CommandFault α) : (liftExcept e : Edit α).Makes m fun _ => True := by
  cases e with
  | ok value => exact pure trivial
  | error fault => exact throw fault

theorem forM {f : α → Edit Unit} {items : List α}
    (hf : ∀ item ∈ items, (f item).Makes m fun _ => True) : (items.forM f).Makes m fun _ => True := by
  induction items with
  | nil => exact pure trivial
  | cons first rest ih =>
    exact (hf first List.mem_cons_self).bind fun _ _ =>
      ih fun item hmem => hf item (List.mem_cons_of_mem _ hmem)

theorem mapM {f : α → Edit β} {items : List α} {Q : β → Prop}
    (hf : ∀ item ∈ items, (f item).Makes m Q) :
    (items.mapM f).Makes m fun values => ∀ value ∈ values, Q value := by
  induction items with
  | nil =>
    rw [List.mapM_nil]
    exact pure (by simp)
  | cons first rest ih =>
    rw [List.mapM_cons]
    refine (hf first List.mem_cons_self).bind fun value hvalue => ?_
    refine (ih fun item hmem => hf item (List.mem_cons_of_mem _ hmem)).bind fun values hvalues => ?_
    exact pure (List.forall_mem_cons.mpr ⟨hvalue, hvalues⟩)

theorem filterAuxM {f : α → Edit Bool} (hf : ∀ item, (f item).Makes m fun _ => True)
    (items kept : List α) : (items.filterAuxM f kept).Makes m fun _ => True := by
  induction items generalizing kept with
  | nil => exact pure trivial
  | cons first rest ih => exact (hf first).bind fun _ _ => ih _

theorem filterM {f : α → Edit Bool} (hf : ∀ item, (f item).Makes m fun _ => True)
    (items : List α) : (items.filterM f).Makes m fun _ => True :=
  (filterAuxM hf items []).bind fun _ _ => pure trivial

end Makes

namespace Journaled

/-! ### Single writes, and many -/

theorem write (x : Write) : (Edit.write (·.perform x)).Journaled :=
  (Makes.write x (.everything x)).journaled

theorem take {f : Transaction → Except StoreFault (α × Transaction)} (x : Write)
    (hf : ∀ t, (f t).map (·.2) = t.perform x) : (Edit.take f).Journaled :=
  (Makes.take x hf (.everything x)).journaled

theorem change {f : Transaction → Transaction} (x : Write)
    (hf : ∀ t : Transaction, t.perform x = .ok (f t)) : (Edit.change f).Journaled :=
  (Makes.change x hf (.everything x)).journaled

/-- All writes are made of the material with everything in it. -/
theorem makes {e : Edit α} (he : e.Journaled) : e.Makes .everything fun _ => True := by
  intro w _
  obtain ⟨⟨writes, heq⟩, hlater⟩ := he w
  exact ⟨⟨⟨writes, fun _ _ => .everything _, heq⟩, hlater⟩, fun _ _ => trivial⟩

theorem forM {f : α → Edit Unit} (hf : ∀ item, (f item).Journaled) (items : List α) :
    (items.forM f).Journaled :=
  (Makes.forM fun item _ => (hf item).makes).journaled

theorem made {e : Edit α} (he : e.Journaled) (w : Workspace) : Made .everything w (e.outcome w).2 :=
  (he.makes (.everything w)).1

/-- What an edit yields comes with an intact store and a supply that has moved on. -/
theorem keeps {e : Edit α} (he : e.Journaled) {Q : α → Workspace → Prop}
    (hintact : w.store.Intact) (h : e.Yields w Q) :
    e.Yields w fun value w' => (w'.store.Intact ∧ w.supply.Later w'.supply) ∧ Q value w' := by
  obtain ⟨value, w', hrun, hQ⟩ := h
  have hmade := he.made w
  rw [hrun] at hmade
  exact ⟨value, w', hrun, ⟨hmade.intact hintact, hmade.later⟩, hQ⟩

end Journaled

end Edit

end VersionedTables
