import StyleLift.Proofs.Naming.Registry

/-!
# Names over any history

A registry may be asked in two ways, and the requests may come in any order.  A request by a scheme
of one's own is never refused, so it may take a name that the default scheme would have given, or
one of its numbered alternatives, or a name that was given before.  What the default scheme
promises has to survive all of that.

It does, because the registry remembers two things.  The names taken are exactly the answers so
far, whoever asked, and this is what a new name is compared with.  The names assigned are the
answers of the default scheme by key, and these are never overwritten, so a key is answered the
same way for ever.

* `FirstFree`: what the name for a new key has to be.
* `firstFree_nextFree`: it is what the search finds.
* `Records`: the registry after a history, kept by every request (`Records.answer`).
* `names_of_history`: the law.
-/

namespace StyleLift.Naming

/-- A request for a name. -/
inductive Request where
  /-- By the default scheme. -/
  | scheme (property value : Text) (ctx : Context)
  /-- By a scheme of one's own. -/
  | custom (strategy : Strategy) (property value : Text) (ctx : Context)

/-- What a request by the default scheme is answered by. -/
def Request.key? : Request → Option Key
  | .scheme property value ctx => some ⟨property, value, baseName ctx⟩
  | .custom .. => none

namespace Registry

/-- The answer to a request, and the registry after it. -/
def answer (registry : Registry) : Request → Text × Registry
  | .scheme property value ctx => registry.assign property value ctx
  | .custom strategy property value ctx => registry.assignWith strategy property value ctx

/-- Requests in order, each with its answer. -/
def history (registry : Registry) : List Request → List (Request × Text)
  | [] => []
  | request :: rest =>
    (request, (registry.answer request).1) :: (registry.answer request).2.history rest

/-- The registry after some requests. -/
def after (registry : Registry) : List Request → Registry
  | [] => registry
  | request :: rest => (registry.answer request).2.after rest

theorem map_fst_history (registry : Registry) (requests : List Request) :
    (registry.history requests).map Prod.fst = requests := by
  induction requests generalizing registry with
  | nil => rfl
  | cons request rest ih => rw [history, List.map_cons, ih]

theorem history_append (registry : Registry) (requests later : List Request) :
    registry.history (requests ++ later) =
      registry.history requests ++ (registry.after requests).history later := by
  induction requests generalizing registry with
  | nil => rfl
  | cons request rest ih => rw [List.cons_append, history, ih, history, after, List.cons_append]

/-! ## The first free name -/

/-- The first of a base name and its numbered alternatives that is not among `names`. -/
inductive FirstFree (names : List Text) (base : Text) : Text → Prop
  | base (hfree : base ∉ names) : FirstFree names base base
  | numbered (n : Nat) (hbase : base ∈ names) (hpos : 1 ≤ n)
      (hleast : ∀ m, 1 ≤ m → m < n → numbered base m ∈ names)
      (hfree : numbered base n ∉ names) : FirstFree names base (numbered base n)

theorem FirstFree.notMem {names : List Text} {base name : Text} (h : FirstFree names base name) :
    name ∉ names := by
  cases h with
  | base hfree => exact hfree
  | numbered n hbase hpos hleast hfree => exact hfree

/-- Only which names there are matters. -/
theorem FirstFree.congr {names names' : List Text} (heq : ∀ name, name ∈ names ↔ name ∈ names')
    {base name : Text} (h : FirstFree names base name) : FirstFree names' base name := by
  cases h with
  | base hfree => exact .base (mt (heq _).2 hfree)
  | numbered n hbase hpos hleast hfree =>
    exact .numbered n ((heq _).1 hbase) hpos (fun m hm hlt => (heq _).1 (hleast m hm hlt))
      (mt (heq _).2 hfree)

/-- **The search finds the first free name.** -/
theorem firstFree_nextFree (taken : List Text) (base : Text) :
    FirstFree taken base (nextFree taken base) := by
  by_cases hbase : base ∈ taken
  · have hname : nextFree taken base =
        ((candidates taken base).find? fun name => !taken.contains name).getD base := by
      rw [nextFree, if_neg (by simpa using hbase)]
      rfl
    have hfree := nextFree_notMem taken base
    cases hfind : (candidates taken base).find? fun name => !taken.contains name with
    | none =>
      rw [hname, hfind] at hfree
      exact absurd hbase hfree
    | some name =>
      rw [hname, hfind] at hfree ⊢
      obtain ⟨-, i, hi, rfl, hbefore⟩ := List.find?_eq_some_iff_getElem.1 hfind
      have hget : ∀ (j : Nat) (hj : j < (candidates taken base).length),
          (candidates taken base)[j] = Registry.numbered base (j + 1) := by
        intro j hj
        simp [candidates]
      rw [Option.getD_some, hget] at hfree ⊢
      refine .numbered (i + 1) hbase (Nat.le_add_left 1 i) ?_ hfree
      intro m hm hlt
      obtain ⟨j, rfl⟩ := Nat.exists_eq_add_of_le' hm
      have htaken := hbefore j (by omega)
      rw [hget] at htaken
      simpa using htaken
  · rw [nextFree, if_pos (by simpa using hbase)]
    exact .base hbase

/-! ## The registry after a history -/

theorem mem_assigned_of_lookup {registry : Registry} {key : Key} {name : Text}
    (h : registry.assigned.lookup key = some name) : (key, name) ∈ registry.assigned := by
  obtain ⟨front, back, hsplit, -⟩ := List.lookup_eq_some_iff.1 h
  rw [hsplit]
  exact List.mem_append_right _ List.mem_cons_self

/-- What the registry remembers of a history: the answers are the names taken, and the answers by
the default scheme are the names assigned. -/
structure Records (registry : Registry) (log : List (Request × Text)) : Prop where
  sound : registry.Sound
  mem_taken_iff : ∀ name, name ∈ registry.taken ↔ name ∈ log.map Prod.snd
  lookup_eq : ∀ entry ∈ log, ∀ key, entry.1.key? = some key →
    registry.assigned.lookup key = some entry.2
  exists_of_assigned : ∀ record ∈ registry.assigned, ∃ entry ∈ log, entry.1.key? = some record.1

theorem Records.nil : Records {} [] :=
  ⟨Sound.empty, by simp, by simp, by simp⟩

namespace Records

variable {registry : Registry} {log : List (Request × Text)}

/-- A key that comes for the first time has no name yet. -/
theorem lookup_eq_none (h : registry.Records log) {key : Key}
    (hnew : ∀ entry ∈ log, entry.1.key? ≠ some key) : registry.assigned.lookup key = none := by
  refine List.lookup_eq_none_iff.2 fun record hrecord => ?_
  obtain ⟨entry, hentry, hkey⟩ := h.exists_of_assigned record hrecord
  rw [bne_iff_ne]
  rintro rfl
  exact hnew entry hentry hkey

/-- **A key that comes for the first time gets the first free name.** -/
theorem firstFree_answer (h : registry.Records log) {request : Request} {key : Key}
    (hkey : request.key? = some key) (hnew : ∀ entry ∈ log, entry.1.key? ≠ some key) :
    FirstFree (log.map Prod.snd) key.base (registry.answer request).1 := by
  cases request with
  | custom => cases hkey
  | scheme property value ctx =>
    obtain rfl := Option.some.inj hkey
    have hanswer : (registry.answer (.scheme property value ctx)).1 =
        nextFree registry.taken (baseName ctx) := by
      rw [answer, assign, h.lookup_eq_none hnew]
    rw [hanswer]
    exact (firstFree_nextFree registry.taken (baseName ctx)).congr h.mem_taken_iff

/-- A request by the default scheme is remembered. -/
theorem assign (h : registry.Records log) (property value : Text) (ctx : Context) :
    (registry.assign property value ctx).2.Records
      (log ++ [(.scheme property value ctx, (registry.assign property value ctx).1)]) := by
  have hsound := h.sound.assign property value ctx
  cases hlook : registry.assigned.lookup ⟨property, value, baseName ctx⟩ with
  | some name =>
    -- the answer repeats an earlier one, and nothing changes
    have hassign : registry.assign property value ctx = (name, registry) := by
      rw [Registry.assign, hlook]
    rw [hassign] at hsound ⊢
    refine ⟨hsound, ?_, ?_, ?_⟩
    · intro other
      have htaken := h.sound.mem_taken (mem_assigned_of_lookup hlook)
      rw [h.mem_taken_iff] at htaken ⊢
      simp only [List.map_append, List.mem_append, List.map_cons, List.map_nil,
        List.mem_singleton]
      exact ⟨Or.inl, fun hother => hother.elim id fun heq => heq ▸ htaken⟩
    · intro entry hentry key hkey
      rcases List.mem_append.1 hentry with hentry | hentry
      · exact h.lookup_eq entry hentry key hkey
      · obtain rfl := List.mem_singleton.1 hentry
        obtain rfl := Option.some.inj hkey
        exact hlook
    · intro record hrecord
      obtain ⟨entry, hentry, hkey⟩ := h.exists_of_assigned record hrecord
      exact ⟨entry, List.mem_append_left _ hentry, hkey⟩
  | none =>
    have hassign : registry.assign property value ctx =
        (nextFree registry.taken (baseName ctx),
          ⟨nextFree registry.taken (baseName ctx) :: registry.taken,
            (⟨property, value, baseName ctx⟩, nextFree registry.taken (baseName ctx)) ::
              registry.assigned⟩) := by
      rw [Registry.assign, hlook]
    rw [hassign] at hsound ⊢
    refine ⟨hsound, ?_, ?_, ?_⟩
    · intro other
      simp only [List.mem_cons, h.mem_taken_iff, List.map_append, List.mem_append, List.map_cons,
        List.map_nil, List.not_mem_nil, or_false]
      exact or_comm
    · intro entry hentry key hkey
      rcases List.mem_append.1 hentry with hentry | hentry
      · -- an earlier key has a name, so it is not the new one
        have hold := h.lookup_eq entry hentry key hkey
        have hne : key ≠ ⟨property, value, baseName ctx⟩ := by
          rintro rfl
          rw [hlook] at hold
          cases hold
        rw [List.lookup_cons, beq_false_of_ne hne]
        exact hold
      · obtain rfl := List.mem_singleton.1 hentry
        obtain rfl := Option.some.inj hkey
        rw [List.lookup_cons_self]
    · intro record hrecord
      rcases List.mem_cons.1 hrecord with rfl | hrecord
      · exact ⟨_, List.mem_append_right _ List.mem_cons_self, rfl⟩
      · obtain ⟨entry, hentry, hkey⟩ := h.exists_of_assigned record hrecord
        exact ⟨entry, List.mem_append_left _ hentry, hkey⟩

/-- A request by a scheme of one's own takes a name and assigns none. -/
theorem assignWith (h : registry.Records log) (strategy : Strategy) (property value : Text)
    (ctx : Context) :
    (registry.assignWith strategy property value ctx).2.Records
      (log ++ [(.custom strategy property value ctx,
        (registry.assignWith strategy property value ctx).1)]) := by
  refine ⟨⟨fun hmem => List.mem_cons_of_mem _ (h.sound.mem_taken hmem), h.sound.key_eq⟩,
    ?_, ?_, ?_⟩
  · intro other
    simp only [Registry.assignWith, List.mem_cons, h.mem_taken_iff, List.map_append,
      List.mem_append, List.map_cons, List.map_nil, List.not_mem_nil, or_false]
    exact or_comm
  · intro entry hentry key hkey
    rcases List.mem_append.1 hentry with hentry | hentry
    · exact h.lookup_eq entry hentry key hkey
    · obtain rfl := List.mem_singleton.1 hentry
      cases hkey
  · intro record hrecord
    obtain ⟨entry, hentry, hkey⟩ := h.exists_of_assigned record hrecord
    exact ⟨entry, List.mem_append_left _ hentry, hkey⟩

/-- **Every request is remembered.** -/
theorem answer (h : registry.Records log) (request : Request) :
    (registry.answer request).2.Records (log ++ [(request, (registry.answer request).1)]) := by
  cases request with
  | scheme property value ctx => exact h.assign property value ctx
  | custom strategy property value ctx => exact h.assignWith strategy property value ctx

/-- All requests of a history are remembered. -/
theorem after (h : registry.Records log) (requests : List Request) :
    (registry.after requests).Records (log ++ registry.history requests) := by
  induction requests generalizing registry log with
  | nil =>
    rw [history, List.append_nil]
    exact h
  | cons request rest ih =>
    have hrest := ih (h.answer request)
    rw [List.append_assoc, List.singleton_append] at hrest
    exact hrest

/-- Two answers by the default scheme are the same name exactly when the keys are the same. -/
theorem eq_iff_key_eq (h : registry.Records log) {a b : Request × Text} (ha : a ∈ log) (hb : b ∈ log)
    {key key' : Key} (hkey : a.1.key? = some key) (hkey' : b.1.key? = some key') :
    a.2 = b.2 ↔ key = key' := by
  have hlook := h.lookup_eq a ha key hkey
  have hlook' := h.lookup_eq b hb key' hkey'
  constructor
  · intro heq
    rw [← heq] at hlook'
    exact h.sound.key_eq (mem_assigned_of_lookup hlook) (mem_assigned_of_lookup hlook')
  · rintro rfl
    exact Option.some.inj (hlook.symm.trans hlook')

end Records

/-- **The law of names.**  Over any sequence of requests, by the default scheme and by schemes of
one's own, that a new registry answers in turn:

* every request is answered;
* a key that comes for the first time gets a name that was never an answer before, namely the
  first free one of its base name and the numbered alternatives;
* two answers by the default scheme are the same name exactly when their keys are the same,
  whatever was asked in between. -/
theorem names_of_history (requests : List Request) :
    let log := history {} requests
    log.map Prod.fst = requests ∧
    (∀ earlier request name later key, log = earlier ++ (request, name) :: later →
      request.key? = some key → (∀ entry ∈ earlier, entry.1.key? ≠ some key) →
      name ∉ earlier.map Prod.snd ∧ FirstFree (earlier.map Prod.snd) key.base name) ∧
    ∀ a ∈ log, ∀ b ∈ log, ∀ key key', a.1.key? = some key → b.1.key? = some key' →
      (a.2 = b.2 ↔ key = key') := by
  intro log
  refine ⟨map_fst_history {} requests, ?_, ?_⟩
  · intro earlier request name later key hlog hkey hnew
    -- the requests split as the log does
    have hrequests : requests =
        earlier.map Prod.fst ++ request :: later.map Prod.fst := by
      rw [← map_fst_history {} requests]
      change log.map Prod.fst = _
      rw [hlog, List.map_append, List.map_cons]
    have hsplit : earlier ++ (request, name) :: later =
        history {} (earlier.map Prod.fst) ++
          (after {} (earlier.map Prod.fst)).history (request :: later.map Prod.fst) := by
      rw [← hlog, ← history_append, ← hrequests]
    have hlength : earlier.length = (history {} (earlier.map Prod.fst)).length := by
      have hmaps := congrArg List.length (map_fst_history {} (earlier.map Prod.fst))
      rw [List.length_map, List.length_map] at hmaps
      exact hmaps.symm
    obtain ⟨hearlier, hnext⟩ := List.append_inj hsplit hlength
    obtain rfl : name = ((after {} (earlier.map Prod.fst)).answer request).1 :=
      congrArg Prod.snd (List.cons.inj hnext).1
    have hrecords := Records.nil.after (earlier.map Prod.fst)
    rw [List.nil_append, ← hearlier] at hrecords
    have hfirst := hrecords.firstFree_answer hkey hnew
    exact ⟨hfirst.notMem, hfirst⟩
  · intro a ha b hb key key' hkey hkey'
    have hrecords := Records.nil.after requests
    rw [List.nil_append] at hrecords
    exact hrecords.eq_iff_key_eq ha hb hkey hkey'

end Registry

end StyleLift.Naming
