import Dag.Logger.Stdout

/-!
# Logging: the manager of loggers

`LoggerManager::getLogger(name)` looks a name up, and makes a logger for it when there is none, under
its spin lock; it returns `loggers_[name]`, which it reads when it has released the lock, and which
puts a null pointer into the map for a name that is not there. The part under the lock has a beginning
and an end here, and so has the reading.

`operator[]` is no const access to the map: while a thread is in it, no other thread may be at the map,
neither in `operator[]` nor under the lock. Where one is, the accesses race, which is undefined: an
insertion may rehash what the other one reads. A race is recorded, and from then on any entry of the
map may become any other.

Loggers are numbered as they are made. A `std::unordered_map` of pointers is a function; a name that
is not a key has no value, and the value of a key may be null.

## Main definitions

* `LoggerManager`, `LoggerManager.step`: the map, and the steps of the calls of its threads
* `LoggerManager.Inv`: the invariant

## Main results

* `getLogger_of_exec`: as long as there is no race, a call never returns null, and it returns the one
  logger of its name
* `silent_of_exec`: a logger that is not the root and was given no appender logs nothing
-/

namespace Dag

open Foundation

/-- The state: all the loggers that were made, the number of `root_logger_`, the map `loggers_`, the
spin lock with the name that its holder asks for, for each thread the name that it is behind the lock
of `getLogger` for, the threads that are in `loggers_[name]`, and what was returned. -/
structure LoggerManager (ι : Type*) where
  made : List Logger
  root_logger : ℕ
  loggers : Text → Option (Option ℕ)
  mutex : Option (ι × Text)
  getting : ι → Option Text
  indexing : Finset ι
  raced : Bool
  returned : List (Text × Option ℕ)

namespace LoggerManager

variable {ι : Type*}

/-- `Logger(logger_name)`, with the default level. -/
def newLogger (name : Text) : Logger := ⟨name, .INFO, []⟩

/-- The name of the root logger. -/
def rootName : Text := "root".toList

/-- `LoggerManager()`, with the number of the appender of the root. -/
def construct (ι : Type*) (stdout : ℕ) : LoggerManager ι where
  made := [(Logger.mk rootName .DEBUG []).addAppender stdout]
  root_logger := 0
  loggers := fun name => if name = rootName then some (some 0) else none
  mutex := none
  getting := fun _ => none
  indexing := ∅
  raced := false
  returned := []

/-- The part of `getLogger(name)` under the lock. -/
def findOrMake (s : LoggerManager ι) (name : Text) : LoggerManager ι :=
  match s.loggers name with
  | some _ => s
  | none => { s with
      made := s.made ++ [newLogger name]
      loggers := Function.update s.loggers name (some (some s.made.length)) }

/-- `return loggers_[name]`. -/
def index (s : LoggerManager ι) (name : Text) : LoggerManager ι :=
  let p := (s.loggers name).getD none
  { s with
    loggers := Function.update s.loggers name (some p)
    returned := s.returned ++ [(name, p)] }

/-- The steps; `change` is what a user does with a logger. -/
inductive Act (ι : Type*)
  /-- `getLogger(name)` is called, and takes the lock -/
  | lock (i : ι) (name : Text)
  /-- the holder of the lock has found or made the logger, and releases it -/
  | find
  /-- `loggers_[name]` begins -/
  | enter (i : ι)
  /-- `loggers_[name]` returns -/
  | index (i : ι)
  | change (logger : ℕ) (c : Logger.Change)
  /-- what a race has done to an entry of the map -/
  | spoil (name : Text) (p : Option (Option ℕ))
  deriving DecidableEq, Repr

def step [DecidableEq ι] (s : LoggerManager ι) : Act ι → Option (LoggerManager ι)
  | .lock i name =>
    if s.mutex = none ∧ s.getting i = none then
      some { s with mutex := some (i, name), raced := s.raced || decide (s.indexing ≠ ∅) }
    else none
  | .find =>
    match s.mutex with
    | some (i, name) => some { s.findOrMake name with
        mutex := none
        getting := Function.update s.getting i (some name) }
    | none => none
  | .enter i =>
    if s.getting i ≠ none ∧ i ∉ s.indexing then
      some { s with
        indexing := insert i s.indexing
        raced := s.raced || s.mutex.isSome || decide (s.indexing ≠ ∅) }
    else none
  | .index i =>
    if i ∈ s.indexing then
      match s.getting i with
      | some name => some { s.index name with
          getting := Function.update s.getting i none
          indexing := s.indexing.erase i }
      | none => none
    else none
  | .change logger c => some { s with made := s.made.modify logger fun l => l.change c }
  | .spoil name p =>
    if s.raced then some { s with loggers := Function.update s.loggers name p } else none

/-- `loggers_[name]` is the logger `k`, and that has the name. -/
def Names (s : LoggerManager ι) (name : Text) (k : ℕ) : Prop :=
  s.loggers name = some (some k) ∧ (s.made[k]?).map Logger.logger_name = some name

/-- **The invariant**: a key has a logger of its name, and the names that are returned, or are about
to be, are keys. -/
structure Inv (s : LoggerManager ι) : Prop where
  names : ∀ name p, s.loggers name = some p → ∃ k, p = some k ∧ s.Names name k
  root : s.Names rootName s.root_logger
  getting : ∀ i name, s.getting i = some name → ∃ k, s.Names name k
  returned : ∀ name p, (name, p) ∈ s.returned → ∃ k, p = some k ∧ s.Names name k

/-! ## Steps -/

section Step

variable {s t : LoggerManager ι} {name name' : Text} {k : ℕ}

theorem change_logger_name (l : Logger) (c : Logger.Change) :
    (l.change c).logger_name = l.logger_name := by
  cases c <;> rfl

/-- A logger keeps its name, and stays in the map. -/
def Keeps (s t : LoggerManager ι) : Prop := ∀ name k, s.Names name k → t.Names name k

theorem keeps_findOrMake (name : Text) : Keeps s (s.findOrMake name) := by
  intro name' k hk
  unfold findOrMake
  split
  · exact hk
  · rename_i hnone
    have hne : name' ≠ name := by
      rintro rfl
      rw [hk.1] at hnone
      cases hnone
    obtain ⟨l, hl, -⟩ := Option.map_eq_some_iff.mp hk.2
    refine ⟨(Function.update_of_ne hne ..).trans hk.1, ?_⟩
    change ((s.made ++ [newLogger name])[k]?).map Logger.logger_name = some name'
    rw [List.getElem?_append_left (List.getElem?_eq_some_iff.mp hl).1]
    exact hk.2

/-- Behind the part under the lock, the name has its logger. -/
theorem names_findOrMake (h : s.Inv) (name : Text) : ∃ k, (s.findOrMake name).Names name k := by
  cases hfind : s.loggers name with
  | some p =>
    obtain ⟨k, -, hk⟩ := h.names name p hfind
    exact ⟨k, keeps_findOrMake name name k hk⟩
  | none =>
    refine ⟨s.made.length, ?_, ?_⟩
    · simp [findOrMake, hfind]
    · simp [findOrMake, hfind, newLogger]

/-- What is in the map behind the part under the lock was there, or is the logger of the name. -/
theorem names_of_findOrMake (h : s.Inv) {p : Option ℕ}
    (hp : (s.findOrMake name).loggers name' = some p) :
    ∃ k, p = some k ∧ (s.findOrMake name).Names name' k := by
  by_cases hname : name' = name
  · subst hname
    obtain ⟨k, hk⟩ := names_findOrMake h name'
    exact ⟨k, Option.some.inj (hp.symm.trans hk.1), hk⟩
  · have hold : s.loggers name' = some p := by
      unfold findOrMake at hp
      split at hp
      · exact hp
      · exact (Function.update_of_ne hname ..).symm.trans hp
    obtain ⟨k, rfl, hk⟩ := h.names name' p hold
    exact ⟨k, rfl, keeps_findOrMake name name' k hk⟩

/-- Reading `loggers_[name]` of a key leaves the map as it is. -/
theorem index_eq (h : s.Names name k) :
    s.index name = { s with returned := s.returned ++ [(name, some k)] } := by
  have hget : (s.loggers name).getD none = some k := by rw [h.1]; rfl
  have hmap : Function.update s.loggers name (some (some k)) = s.loggers := by
    rw [← h.1, Function.update_eq_self]
  rw [index, hget, hmap]

theorem names_change {logger : ℕ} {c : Logger.Change} (h : s.Names name k) :
    Names { s with made := s.made.modify logger fun l => l.change c } name k := by
  refine ⟨h.1, ?_⟩
  have hname := h.2
  change ((s.made.modify logger fun l => l.change c)[k]?).map Logger.logger_name = some name
  rw [List.getElem?_modify]
  cases hl : s.made[k]? with
  | none =>
    rw [hl] at hname
    cases hname
  | some l =>
    rw [hl] at hname
    simp only [Option.map_eq_map, Option.map_some] at hname ⊢
    split_ifs
    · rw [change_logger_name]
      exact hname
    · exact hname

theorem inv_construct (stdout : ℕ) : (construct ι stdout).Inv := by
  have hroot : (construct ι stdout).Names rootName 0 := ⟨by simp [construct], rfl⟩
  refine ⟨fun name p hp => ?_, hroot, nofun, nofun⟩
  by_cases hname : name = rootName
  · subst hname
    exact ⟨0, Option.some.inj (hp.symm.trans hroot.1), hroot⟩
  · exact absurd ((if_neg hname).symm.trans hp) (by simp)

/-- A race stays recorded. -/
theorem raced_of_step [DecidableEq ι] {a : Act ι} (ht : s.step a = some t) (hrace : t.raced = false) :
    s.raced = false := by
  have hframe : ∀ name, (s.findOrMake name).raced = s.raced := by
    intro name
    unfold findOrMake
    split <;> rfl
  cases a with
  | lock i name =>
    simp only [step] at ht
    split_ifs at ht
    obtain rfl := Option.some.inj ht
    exact (Bool.or_eq_false_iff.mp hrace).1
  | find =>
    simp only [step] at ht
    split at ht
    · obtain rfl := Option.some.inj ht
      exact (hframe _).symm.trans hrace
    · cases ht
  | enter i =>
    simp only [step] at ht
    split_ifs at ht
    obtain rfl := Option.some.inj ht
    exact (Bool.or_eq_false_iff.mp (Bool.or_eq_false_iff.mp hrace).1).1
  | index i =>
    simp only [step] at ht
    split_ifs at ht
    split at ht
    · obtain rfl := Option.some.inj ht
      exact hrace
    · cases ht
  | change logger c =>
    obtain rfl := Option.some.inj ht
    exact hrace
  | spoil name p =>
    simp only [step] at ht
    split_ifs at ht
    obtain rfl := Option.some.inj ht
    exact hrace

/-- The locked part keeps the invariant. -/
theorem Inv.find [DecidableEq ι] (h : s.Inv) (i : ι) (name : Text) :
    Inv { s.findOrMake name with
      mutex := none, getting := Function.update s.getting i (some name) } := by
  have hkeeps := keeps_findOrMake (s := s) name
  have hframe : (s.findOrMake name).root_logger = s.root_logger ∧
      (s.findOrMake name).returned = s.returned := by
    unfold findOrMake
    split <;> exact ⟨rfl, rfl⟩
  refine ⟨fun name' p hp => names_of_findOrMake h hp, ?_, fun j name' hj => ?_,
    fun name' p hp => ?_⟩
  · change (s.findOrMake name).Names rootName (s.findOrMake name).root_logger
    rw [hframe.1]
    exact hkeeps _ _ h.root
  · change Function.update s.getting i (some name) j = some name' at hj
    by_cases hji : j = i
    · subst hji
      rw [Function.update_self] at hj
      obtain rfl := Option.some.inj hj
      exact names_findOrMake h name
    · rw [Function.update_of_ne hji] at hj
      obtain ⟨k, hk⟩ := h.getting j name' hj
      exact ⟨k, hkeeps _ _ hk⟩
  · change (name', p) ∈ (s.findOrMake name).returned at hp
    rw [hframe.2] at hp
    obtain ⟨k, rfl, hk⟩ := h.returned name' p hp
    exact ⟨k, rfl, hkeeps _ _ hk⟩

/-- The reading keeps the invariant: the name is a key. -/
theorem Inv.index [DecidableEq ι] (h : s.Inv) {i : ι} (hi : s.getting i = some name) :
    Inv { s.index name with
      getting := Function.update s.getting i none, indexing := s.indexing.erase i } := by
  obtain ⟨k, hk⟩ := h.getting i name hi
  rw [index_eq hk]
  refine ⟨h.names, h.root, fun j name' hj => ?_, fun name' p hp => ?_⟩
  · change Function.update s.getting i none j = some name' at hj
    by_cases hji : j = i
    · rw [hji, Function.update_self] at hj
      cases hj
    · rw [Function.update_of_ne hji] at hj
      exact h.getting j name' hj
  · rcases List.mem_append.mp hp with hp | hp
    · exact h.returned name' p hp
    · obtain ⟨rfl, rfl⟩ := Prod.mk.inj (List.mem_singleton.mp hp)
      exact ⟨k, rfl, hk⟩

/-- The step lemma. -/
theorem Inv.step [DecidableEq ι] (h : s.Inv) {a : Act ι} (ht : s.step a = some t)
    (hrace : s.raced = false) : t.Inv := by
  cases a with
  | lock i name =>
    simp only [LoggerManager.step] at ht
    split_ifs at ht
    obtain rfl := Option.some.inj ht
    exact ⟨h.names, h.root, h.getting, h.returned⟩
  | find =>
    simp only [LoggerManager.step] at ht
    split at ht
    · obtain rfl := Option.some.inj ht
      exact h.find _ _
    · cases ht
  | enter i =>
    simp only [LoggerManager.step] at ht
    split_ifs at ht
    obtain rfl := Option.some.inj ht
    exact ⟨h.names, h.root, h.getting, h.returned⟩
  | index i =>
    simp only [LoggerManager.step] at ht
    split_ifs at ht
    split at ht
    · rename_i name hi
      obtain rfl := Option.some.inj ht
      exact h.index hi
    · cases ht
  | change logger c =>
    obtain rfl := Option.some.inj ht
    refine ⟨fun name p hp => ?_, names_change h.root, fun i name hi => ?_, fun name p hp => ?_⟩
    · obtain ⟨k, rfl, hk⟩ := h.names name p hp
      exact ⟨k, rfl, names_change hk⟩
    · obtain ⟨k, hk⟩ := h.getting i name hi
      exact ⟨k, names_change hk⟩
    · obtain ⟨k, rfl, hk⟩ := h.returned name p hp
      exact ⟨k, rfl, names_change hk⟩
  | spoil name p => simp [LoggerManager.step, hrace] at ht

end Step

/-! ## Runs -/

section Runs

variable [DecidableEq ι] {s : LoggerManager ι} {as : List (Act ι)} {stdout : ℕ}

theorem inv_of_exec (h : exec step (construct ι stdout) as = some s) (hrace : s.raced = false) :
    s.Inv := by
  have hinv : s.raced = false → s.Inv := by
    refine exec_invariant (I := fun s => s.raced = false → s.Inv) ?_
      (fun _ => inv_construct stdout) h
    intro s a t hs ht hrace
    have hrace' := raced_of_step ht hrace
    exact (hs hrace').step ht hrace'
  exact hinv hrace

/-- **One logger for a name**, in every interleaving of the calls of any threads for any names in which
no `loggers_[name]` overlaps another access to the map: a call returns a logger, never null, whose
name is the one asked for, and for the name of the root the root logger; and two calls return the same
logger exactly when they are for the same name. -/
theorem getLogger_of_exec (h : exec step (construct ι stdout) as = some s)
    (hrace : s.raced = false) :
    (∀ name p, (name, p) ∈ s.returned → ∃ k l, p = some k ∧ s.made[k]? = some l ∧
      l.logger_name = name ∧ (name = rootName → k = s.root_logger)) ∧
    (∀ name name' p p', (name, p) ∈ s.returned → (name', p') ∈ s.returned →
      (p = p' ↔ name = name')) := by
  have hinv := inv_of_exec h hrace
  constructor
  · intro name p hp
    obtain ⟨k, rfl, hk⟩ := hinv.returned name p hp
    obtain ⟨l, hl, hname⟩ := Option.map_eq_some_iff.mp hk.2
    refine ⟨k, l, rfl, hl, hname, ?_⟩
    rintro rfl
    exact Option.some.inj (Option.some.inj (hk.1.symm.trans hinv.root.1))
  · intro name name' p p' hp hp'
    obtain ⟨k, rfl, hk⟩ := hinv.returned name p hp
    obtain ⟨k', rfl, hk'⟩ := hinv.returned name' p' hp'
    constructor
    · intro heq
      obtain rfl := Option.some.inj heq
      exact Option.some.inj (hk.2.symm.trans hk'.2)
    · rintro rfl
      exact Option.some.inj (hk.1.symm.trans hk'.1)

/-- Two threads ask for a new name at once. -/
theorem getLogger_of_exec_two_threads :
    ∃ s : LoggerManager (Fin 2), exec step (construct (Fin 2) 0)
        [.lock 0 ['a'], .find, .lock 1 ['a'], .find, .enter 1, .index 1, .enter 0, .index 0] =
          some s ∧
      (['a'], some 1) ∈ s.returned ∧ ∃ l, s.made[1]? = some l ∧ l.logger_name = ['a'] := by
  obtain ⟨s, hs⟩ : ∃ s : LoggerManager (Fin 2), exec step (construct (Fin 2) 0)
      [.lock 0 ['a'], .find, .lock 1 ['a'], .find, .enter 1, .index 1, .enter 0, .index 0] =
        some s := ⟨_, rfl⟩
  have hmem : (['a'], some 1) ∈ s.returned ∧ s.raced = false := by
    obtain rfl := Option.some.inj hs
    decide
  obtain ⟨k, l, hk, hl, hname, -⟩ := (getLogger_of_exec hs hmem.2).1 _ _ hmem.1
  obtain rfl := Option.some.inj hk
  exact ⟨s, hs, hmem.1, l, hl, hname⟩

/-- The call of one thread takes the lock, and may insert a name, while another thread is in
`loggers_[name]`, which may then return null. -/
example : (exec step (construct ℕ 0)
    [.lock 0 ['a'], .find, .enter 0, .lock 1 ['b'], .find, .spoil ['a'] none, .index 0]).map
      (fun s => (s.raced, s.returned)) = some (true, [(['a'], none)]) := by decide

/-- The step gives the logger no appender. -/
def NoAppender (k : ℕ) (a : Act ι) : Prop :=
  ∀ appender, a ≠ .change k (.addAppender appender)

/-- The logger has no appender, if it has been made. -/
def Silent (k : ℕ) (s : LoggerManager ι) : Prop := ∀ l, s.made[k]? = some l → l.appenders = []

omit [DecidableEq ι] in
/-- A logger that is made has no appender. -/
theorem Silent.findOrMake {k : ℕ} (h : s.Silent k) (name : Text) : (s.findOrMake name).Silent k := by
  unfold LoggerManager.findOrMake
  split
  · exact h
  · intro l hl
    rcases Nat.lt_or_ge k s.made.length with hlt | hge
    · exact h l ((List.getElem?_append_left hlt).symm.trans hl)
    · rw [List.getElem?_append_right hge] at hl
      obtain rfl := List.mem_singleton.mp (List.mem_of_getElem? hl)
      rfl

theorem Silent.step {t : LoggerManager ι} {a : Act ι} {k : ℕ} (h : s.Silent k) (ha : NoAppender k a)
    (ht : s.step a = some t) : t.Silent k := by
  cases a with
  | lock i name =>
    simp only [LoggerManager.step] at ht
    split_ifs at ht
    obtain rfl := Option.some.inj ht
    exact h
  | find =>
    simp only [LoggerManager.step] at ht
    split at ht
    · rename_i i name hmutex
      obtain rfl := Option.some.inj ht
      exact h.findOrMake name
    · cases ht
  | enter i =>
    simp only [LoggerManager.step] at ht
    split_ifs at ht
    obtain rfl := Option.some.inj ht
    exact h
  | index i =>
    simp only [LoggerManager.step] at ht
    split_ifs at ht
    split at ht
    · obtain rfl := Option.some.inj ht
      exact h
    · cases ht
  | spoil name p =>
    simp only [LoggerManager.step] at ht
    split_ifs at ht
    obtain rfl := Option.some.inj ht
    exact h
  | change logger c =>
    obtain rfl := Option.some.inj ht
    intro l hl
    change (s.made.modify logger fun l => l.change c)[k]? = some l at hl
    rw [List.getElem?_modify] at hl
    obtain ⟨l', hl', rfl⟩ := Option.map_eq_some_iff.mp hl
    by_cases hk : logger = k
    · subst hk
      have hempty := h l' hl'
      rw [if_pos rfl]
      cases c with
      | addAppender appender => exact absurd rfl (ha appender)
      | delAppender appender => simp [Logger.change, Logger.delAppender, hempty]
      | clearAppender => rfl
      | setLoggerLevel loggerLevel => exact hempty
    · rw [if_neg hk]
      exact h l' hl'

/-- A logger that is not the root logs nothing, whatever the level of the event, until it is given
an appender. -/
theorem silent_of_exec {k : ℕ} (hk : k ≠ 0) (ha : ∀ a ∈ as, NoAppender k a)
    (h : exec step (construct ι stdout) as = some s) {l : Logger} (hl : s.made[k]? = some l)
    (event : LogEvent) : l.log event = [] := by
  have hstart : (construct ι stdout).Silent k := by
    intro l hl
    have hlt := (List.getElem?_eq_some_iff.mp hl).1
    exact absurd (Nat.lt_one_iff.mp hlt) hk
  have hsilent : s.Silent k := exec_invariant_of_guarded
    (fun _ _ _ hi ha ht => Silent.step hi ha ht) hstart (guarded_of_forall_mem ha _) h
  simp [Logger.log, hsilent l hl]

end Runs

end LoggerManager

end Dag
