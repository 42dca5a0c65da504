import VersionedTables.Proofs.Runs

/-!
# Going on after a refusal

A refused command keeps what it had changed until then, and it is up to the owner of the transaction to
roll it back. An owner that goes on instead would commit half a command. For most commands there is
no half of it: they look their request through before they change anything (`Command.vets_allows`),
and when they have done so nothing can go wrong any more (`Command.run_effect`). So they leave a
transaction just as it was when they are refused, its journal too, and the transaction comes to the same
as one in which they were never tried (`Database.Fresh.refused_keeps`).

Creating, updating and removing rows are not like this: they put a copy of the table in its place and
look at the rows then.
-/

namespace VersionedTables

variable {w w' : Workspace} {command : Command} {fault : CommandFault}

namespace Edit

variable {α β : Type} {e : Edit α}

/-- Tries an edit, and goes on with what it left if it is refused. -/
def attempt (e : Edit α) : Edit (Except CommandFault α) :=
  ExceptT.lift e.run

theorem outcome_attempt : (attempt e).outcome w = (.ok (e.outcome w).1, (e.outcome w).2) :=
  rfl

/-- An edit that is refused and changes nothing could as well not have been tried. -/
theorem outcome_attempt_bind {f : Except CommandFault α → Edit β}
    (h : e.outcome w = (.error fault, w)) :
    (attempt e >>= f).outcome w = (f (.error fault)).outcome w := by
  rw [outcome_bind, outcome_attempt, h]

end Edit

/-- Commands of one transaction lead from sound stores to sound stores. -/
theorem Command.mapM_run_sound {commands : List Command} {Q : List Reply → Workspace → Prop}
    (h : w.Sound) (hyields : (commands.mapM run).Yields w Q) :
    (commands.mapM run).Yields w fun replies w' => w'.Sound ∧ Q replies w' := by
  induction commands generalizing w Q with
  | nil => exact Edit.yields_mapM_nil.mpr ⟨h, Edit.yields_mapM_nil.mp hyields⟩
  | cons command rest ih =>
    rw [Edit.yields_mapM_cons] at hyields ⊢
    have hallowed := (yields_iff h).mp (hyields.imp fun _ _ _ => trivial)
    refine (hyields.and (run_effect h hallowed)).imp ?_
    rintro reply w₁ ⟨hrest, heffect⟩
    exact ih heffect.step.sound hrest

/-- A command that looks its request through first leaves everything as it was when it is refused. -/
theorem Command.eq_of_refused (h : w.Sound) (hfirst : command.vetsFirst = true)
    (hrefused : command.run.outcome w = (.error fault, w')) : w' = w :=
  (vets_allows h hfirst).eq_of_refused (run_effect h) hrefused

namespace Database

variable {db : Database}

/-- A transaction is what its edit ends in. -/
theorem transact_congr {α : Type} {e e' : Edit α} (h : e.outcome db.begin = e'.outcome db.begin) :
    db.transact e = db.transact e' := by
  rw [transact, transact, show e.run.run db.begin = _ from h]
  rfl

/-- Wherever a run has led to, and whatever was done in a transaction since it was opened: a command
that looks its request through first leaves the store and the journal as they were when it is refused,
and no identifiers are used up. Whatever the transaction does next, it comes to the same as if the
command had not been tried. -/
theorem Fresh.refused_keeps (h : db.Fresh) (commands earlier : List Command) {replies : List Reply}
    (hopen : (earlier.mapM Command.run).outcome (db.run commands).begin = (.ok replies, w))
    (hfirst : command.vetsFirst = true)
    (hrefused : command.run.outcome w = (.error fault, w')) :
    (w'.store = w.store ∧ w'.transaction.journal = w.transaction.journal ∧ w'.supply = w.supply) ∧
      ∀ {α : Type} (rest : Edit α),
        (db.run commands).transact (do
          let _ ← earlier.mapM Command.run
          let _ ← Edit.attempt command.run
          rest) =
        (db.run commands).transact (do
          let _ ← earlier.mapM Command.run
          rest) := by
  have hsound : (db.run commands).begin.Sound := h.run_sound commands
  obtain ⟨replies', w₁, hopen', hsound₁, -⟩ :=
    Command.mapM_run_sound (Q := fun _ _ => True) hsound ⟨replies, w, hopen, trivial⟩
  obtain ⟨-, rfl⟩ := Prod.mk.inj (hopen.symm.trans hopen')
  obtain rfl := Command.eq_of_refused hsound₁ hfirst hrefused
  refine ⟨⟨rfl, rfl, rfl⟩, fun rest => ?_⟩
  refine transact_congr ?_
  rw [Edit.outcome_bind, Edit.outcome_bind, hopen]
  exact Edit.outcome_attempt_bind hrefused

/-- A database with one table. -/
def oneTable : Database :=
  (inMemory (.unary fun _ => ⟨0, 0⟩)).run
    [.createBranch "main" none, .createTable ⟨"ii"⟩ "users" false]

/-- In a transaction that created a second table, giving it the name of the first one is refused. The
second table is there as before, and can still be undone. -/
theorem refused_keeps_oneTable :
    ∃ replies w w', ([.createTable ⟨"ii"⟩ "roles" true].mapM Command.run).outcome oneTable.begin =
        (.ok replies, w) ∧ w.transaction.journal.isEmpty = false ∧
      (Command.renameTable ⟨"ii"⟩ "roles" "users").run.outcome w =
        (.error (.tableExists ⟨"users"⟩), w') ∧
      w'.store = w.store ∧ w'.transaction.journal = w.transaction.journal := by
  have hanswer : (([.createTable ⟨"ii"⟩ "roles" true].mapM Command.run >>= fun _ =>
      (Command.renameTable ⟨"ii"⟩ "roles" "users").run).outcome oneTable.begin).1 =
        .error (.tableExists ⟨"users"⟩) := by
    decide +kernel
  have hjournal : (([.createTable ⟨"ii"⟩ "roles" true].mapM Command.run).outcome
      oneTable.begin).2.transaction.journal.isEmpty = false := by
    decide +kernel
  rcases hopen : ([.createTable ⟨"ii"⟩ "roles" true].mapM Command.run).outcome oneTable.begin with
    ⟨fault | replies, w⟩
  · have hok : (([.createTable ⟨"ii"⟩ "roles" true].mapM Command.run).outcome
        oneTable.begin).1.isOk = true := by
      decide +kernel
    rw [hopen] at hok
    cases hok
  rw [hopen] at hjournal
  rw [Edit.outcome_bind, hopen] at hanswer
  obtain ⟨w', hrefused⟩ : ∃ w', (Command.renameTable ⟨"ii"⟩ "roles" "users").run.outcome w =
      (.error (.tableExists ⟨"users"⟩), w') := ⟨_, Prod.ext hanswer rfl⟩
  obtain ⟨⟨hstore, hsame, -⟩, -⟩ := Fresh.refused_keeps
    (fresh_inMemory (Supply.distinct_unary fun _ => ⟨0, 0⟩)) _ _ hopen rfl hrefused
  exact ⟨replies, w, w', hopen, hjournal, hrefused, hstore, hsame⟩

/-- A command on rows is not like this. When it finds that a row is named twice, the copy of a published
table has been made. -/
example :
    ((Command.updateRows ⟨"iiiii"⟩ "users"
      [⟨"ada", .null, none, none, none⟩, ⟨"ada", .null, none, none, none⟩]).run.outcome
        (oneTable.run [.commit ⟨"main"⟩ none]).begin).2.transaction.journal.isEmpty = false := by
  decide +kernel

end Database

end VersionedTables
