import DeferredBinding.Link.Run
import DeferredBinding.Proofs.Machine
import Mathlib.Data.List.Forall2

/-!
# How a chain is built and run

A chain is built from names: the first name without a linker is refused, then a second primary linker, and what is left is put
in order. `Built` says what comes of it without saying how it is found, and `buildChain_eq_iff` says that this is what is built.
A chain is then run stage by stage. `Ended` says how such a run ends: every stage was given what the one before it made, up to
the end or to the first that failed. The machine's log tells which stages were applied, and so that none was behind a failure
(`perform_runLinkers_iff`).
-/

namespace DeferredBinding

/-! ## The order of stages -/

/-- Stages from the first to run on. -/
def Stage.rank : Stage → Nat
  | .pre => 0
  | .primary => 1
  | .post => 2

/-- A chain in the order of the stages, with the linkers of every stage as they are listed. -/
structure InOrder (l chain : List Linker) : Prop where
  stages : chain.Pairwise fun a b => a.stage.rank ≤ b.stage.rank
  kept : ∀ s, linkersAt s chain = linkersAt s l

/-- The linkers of a list in the order of the stages. -/
def staged (l : List Linker) : List Linker :=
  linkersAt .pre l ++ linkersAt .primary l ++ linkersAt .post l

/-- The linkers of a stage are those of the list that have it. -/
theorem mem_linkersAt {s : Stage} {l : List Linker} {k : Linker} : k ∈ linkersAt s l ↔ k ∈ l ∧ k.stage = s := by
  simp [linkersAt]

/-- A linker in front joins the others of its stage, in front of them. -/
theorem linkersAt_cons (s : Stage) (k : Linker) (l : List Linker) :
    linkersAt s (k :: l) = if k.stage = s then k :: linkersAt s l else linkersAt s l := by
  simp [linkersAt, List.filter_cons]

theorem linkersAt_append (s : Stage) (l l' : List Linker) : linkersAt s (l ++ l') = linkersAt s l ++ linkersAt s l' :=
  List.filter_append ..

/-- Of the linkers of one stage, all are of that stage and none of another. -/
theorem linkersAt_linkersAt (s t : Stage) (l : List Linker) :
    linkersAt s (linkersAt t l) = if s = t then linkersAt s l else [] := by
  split
  · rename_i hst
    subst hst
    simp [linkersAt]
  · rename_i hst
    simp only [linkersAt, List.filter_filter, List.filter_eq_nil_iff]
    intro k _
    simp only [Bool.and_eq_true, beq_iff_eq, not_and]
    intro hs ht
    exact hst (hs.symm.trans ht)

/-- The linkers of the three stages one after another are in order. -/
theorem inOrder_staged (l : List Linker) : InOrder l (staged l) := by
  refine ⟨?_, ?_⟩
  · have hsame : ∀ s, (linkersAt s l).Pairwise fun a b => a.stage.rank ≤ b.stage.rank := by
      intro s
      refine List.pairwise_of_forall_mem_list ?_
      intro a ha b hb
      have hab : a.stage = b.stage := (mem_linkersAt.1 ha).2.trans (mem_linkersAt.1 hb).2.symm
      exact Nat.le_of_eq (congrArg Stage.rank hab)
    unfold staged
    rw [List.pairwise_append, List.pairwise_append]
    refine ⟨⟨hsame _, hsame _, ?_⟩, hsame _, ?_⟩
    · intro a ha b _
      rw [(mem_linkersAt.1 ha).2]
      exact Nat.zero_le _
    · intro a _ b hb
      rw [(mem_linkersAt.1 hb).2]
      cases a.stage <;> decide
  · intro s
    unfold staged
    cases s <;> simp [linkersAt_append, linkersAt_linkersAt]

/-- A list in the order of the stages is its own linkers, stage by stage. -/
theorem eq_staged_of_pairwise {chain : List Linker} (h : chain.Pairwise fun a b => a.stage.rank ≤ b.stage.rank) :
    chain = staged chain := by
  induction chain with
  | nil => rfl
  | cons k chain ih =>
    rw [List.pairwise_cons] at h
    have hrest := ih h.2
    -- no linker of an earlier stage stands behind the first one
    have hnone : ∀ s : Stage, s.rank < k.stage.rank → linkersAt s chain = [] := by
      intro s hs
      rw [List.eq_nil_iff_forall_not_mem]
      intro b hb
      have hle := h.1 b (mem_linkersAt.1 hb).1
      rw [(mem_linkersAt.1 hb).2] at hle
      omega
    unfold staged at hrest ⊢
    simp only [linkersAt_cons]
    cases hk : k.stage with
    | pre => simpa using hrest
    | primary =>
      rw [hnone .pre (by rw [hk]; decide)] at hrest ⊢
      simpa using hrest
    | post =>
      rw [hnone .pre (by rw [hk]; decide), hnone .primary (by rw [hk]; decide)] at hrest ⊢
      simpa using hrest

/-- There is only one order of a list: that of its stages one after another. -/
theorem InOrder.eq_staged {l chain : List Linker} (h : InOrder l chain) : chain = staged l := by
  rw [eq_staged_of_pairwise h.stages, staged, h.kept, h.kept, h.kept, staged]

/-! ## Building -/

/-- What is put in order depends on the linkers of each stage only. -/
theorem orderChain_congr {l l' : List Linker} (h : ∀ s, linkersAt s l = linkersAt s l') : orderChain l = orderChain l' := by
  unfold orderChain
  rw [h, h, h]

/-- Two primary linkers are refused, and the first two are named. -/
theorem orderChain_of_several {l : List Linker} {p q : Linker} {rest : List Linker}
    (h : linkersAt .primary l = p :: q :: rest) : orderChain l = .error (.severalPrimaries p.name q.name) := by
  unfold orderChain
  rw [h]

/-- With at most one primary linker the stages are put one after another. -/
theorem orderChain_of_toList {l : List Linker} {primary : Option Linker} (h : linkersAt .primary l = primary.toList) :
    orderChain l = .ok (staged l) := by
  unfold orderChain staged
  rw [h]
  cases primary with
  | none => rfl
  | some p => rfl

/-- The first name of a list that has no linker. -/
def Registry.FirstUnknown (r : Registry) (names : List String) (name : String) : Prop :=
  ∃ before after, names = before ++ name :: after ∧ (∀ n ∈ before, r.contains n = true) ∧ r.contains name = false

/-- The linkers that a list of names stands for, one for each name. -/
def Registry.Declares (r : Registry) (names : List String) (l : List Linker) : Prop :=
  List.Forall₂ (fun name k => r.get? name = some k) names l

/-- The first two primary linkers of a list. -/
def FirstPrimaries (l : List Linker) (p q : Linker) : Prop :=
  ∃ before between after, l = before ++ p :: (between ++ q :: after) ∧ p.stage = .primary ∧ q.stage = .primary ∧
    ∀ k ∈ before ++ between, k.stage ≠ .primary

/-- What comes of building a chain from names. -/
inductive Registry.Built (r : Registry) (names : List String) : Except LinkError (List Linker) → Prop
  | unknown {name : String} : r.FirstUnknown names name → Built r names (.error (.unknownLinker name))
  | several {l : List Linker} {p q : Linker} :
      r.Declares names l → FirstPrimaries l p q → Built r names (.error (.severalPrimaries p.name q.name))
  | ordered {l chain : List Linker} {primary : Option Linker} :
      r.Declares names l → linkersAt .primary l = primary.toList →
      chain = linkersAt .pre l ++ primary.toList ++ linkersAt .post l → InOrder l chain → Built r names (.ok chain)

/-- The first two primary linkers are those that the primary stage begins with. -/
theorem firstPrimaries_iff {l : List Linker} {p q : Linker} :
    FirstPrimaries l p q ↔ ∃ rest, linkersAt .primary l = p :: q :: rest := by
  constructor
  · rintro ⟨before, between, after, rfl, hp, hq, hothers⟩
    have hnone : ∀ k ∈ before ++ between, ¬(k.stage == Stage.primary) = true := by
      intro k hk
      simpa using hothers k hk
    refine ⟨linkersAt .primary after, ?_⟩
    have hbefore : linkersAt .primary before = [] :=
      List.filter_eq_nil_iff.2 fun k hk => hnone k (List.mem_append_left _ hk)
    have hbetween : linkersAt .primary between = [] :=
      List.filter_eq_nil_iff.2 fun k hk => hnone k (List.mem_append_right _ hk)
    simp [linkersAt_append, linkersAt_cons, hbefore, hbetween, hp, hq]
  · rintro ⟨rest, h⟩
    obtain ⟨before, l', rfl, hbefore, hp, h'⟩ := List.filter_eq_cons_iff.1 h
    obtain ⟨between, after, rfl, hbetween, hq, -⟩ := List.filter_eq_cons_iff.1 h'
    refine ⟨before, between, after, rfl, by simpa using hp, by simpa using hq, ?_⟩
    intro k hk
    rcases List.mem_append.1 hk with hk | hk
    · simpa using hbefore k hk
    · simpa using hbetween k hk

/-- A list has at most one primary linker, or there are a first and a second one. -/
theorem toList_or_firstPrimaries (l : List Linker) :
    (∃ primary : Option Linker, linkersAt .primary l = primary.toList) ∨ ∃ p q, FirstPrimaries l p q := by
  rcases hp : linkersAt .primary l with _ | ⟨p, _ | ⟨q, rest⟩⟩
  · exact Or.inl ⟨none, rfl⟩
  · exact Or.inl ⟨some p, rfl⟩
  · exact Or.inr ⟨p, q, firstPrimaries_iff.2 ⟨rest, hp⟩⟩

namespace Registry

variable {r : Registry} {names : List String}

/-- A name that is registered gives its linker. -/
theorem create_of_contains {name : String} (h : r.contains name = true) : ∃ k, r.get? name = some k ∧ create r name = .ok k := by
  obtain ⟨k, hk⟩ := Option.isSome_iff_exists.1 h
  refine ⟨k, hk, ?_⟩
  unfold create
  rw [hk]

/-- A name that is not registered is refused by its name. -/
theorem create_of_not_contains {name : String} (h : r.contains name = false) : create r name = .error (.unknownLinker name) := by
  have hnone : r.get? name = none := by simpa [Dict.contains] using h
  unfold create
  rw [hnone]

/-- Names stand for linkers, or there is a first one that does not. -/
theorem declares_or_firstUnknown (r : Registry) (names : List String) :
    (∃ l, r.Declares names l) ∨ ∃ name, r.FirstUnknown names name := by
  induction names with
  | nil => exact Or.inl ⟨[], .nil⟩
  | cons name names ih =>
    cases hname : r.contains name with
    | false => exact Or.inr ⟨name, [], names, rfl, nofun, hname⟩
    | true =>
      obtain ⟨k, hk, -⟩ := create_of_contains hname
      rcases ih with ⟨l, hl⟩ | ⟨n, before, after, rfl, hbefore, hn⟩
      · exact Or.inl ⟨k :: l, .cons hk hl⟩
      · exact Or.inr ⟨n, name :: before, after, rfl, List.forall_mem_cons.2 ⟨hname, hbefore⟩, hn⟩

/-- Names that are all registered give their linkers in order. -/
theorem Declares.mapM_create {l : List Linker} (h : r.Declares names l) : names.mapM (create r) = .ok l := by
  induction h with
  | nil => rfl
  | @cons name k names l hk _ ih =>
    have hcreate : create r name = .ok k := by
      unfold create
      rw [hk]
    rw [List.mapM_cons, hcreate, ih]
    rfl

/-- Names are refused with the first of them that is not registered. -/
theorem FirstUnknown.mapM_create {name : String} (h : r.FirstUnknown names name) :
    names.mapM (create r) = .error (.unknownLinker name) := by
  obtain ⟨before, after, rfl, hbefore, hname⟩ := h
  induction before with
  | nil =>
    rw [List.nil_append, List.mapM_cons, create_of_not_contains hname]
    rfl
  | cons n before ih =>
    obtain ⟨k, -, hcreate⟩ := create_of_contains (hbefore n List.mem_cons_self)
    rw [List.cons_append, List.mapM_cons, hcreate, ih fun n hn => hbefore n (List.mem_cons_of_mem _ hn)]
    rfl

/-- No chain is built of names that are not all registered, whatever their stages. -/
theorem FirstUnknown.buildChain {name : String} (h : r.FirstUnknown names name) :
    r.buildChain names = .error (.unknownLinker name) := by
  rw [Registry.buildChain, h.mapM_create]
  rfl

/-- A chain of registered names is the order of their linkers. -/
theorem Declares.buildChain {l : List Linker} (h : r.Declares names l) : r.buildChain names = orderChain l := by
  rw [Registry.buildChain, h.mapM_create]
  rfl

/-- What comes of building a chain is one of the three outcomes. -/
theorem built_buildChain (r : Registry) (names : List String) : r.Built names (r.buildChain names) := by
  rcases declares_or_firstUnknown r names with ⟨l, hl⟩ | ⟨name, hname⟩
  · rw [hl.buildChain]
    rcases toList_or_firstPrimaries l with ⟨primary, hp⟩ | ⟨p, q, hpq⟩
    · rw [orderChain_of_toList hp]
      refine .ordered hl hp ?_ (inOrder_staged l)
      rw [staged, hp]
    · obtain ⟨rest, hp⟩ := firstPrimaries_iff.1 hpq
      rw [orderChain_of_several hp]
      exact .several hl hpq
  · rw [hname.buildChain]
    exact .unknown hname

/-- A chain is built exactly as it is said. -/
theorem buildChain_eq_iff (r : Registry) (names : List String) (result : Except LinkError (List Linker)) :
    r.buildChain names = result ↔ r.Built names result := by
  constructor
  · rintro rfl
    exact built_buildChain r names
  · intro h
    cases h with
    | unknown hname => exact hname.buildChain
    | several hl hpq =>
      obtain ⟨rest, hp⟩ := firstPrimaries_iff.1 hpq
      rw [hl.buildChain, orderChain_of_several hp]
    | ordered hl hp _ horder => rw [hl.buildChain, orderChain_of_toList hp, horder.eq_staged]

/-- Putting a chain in order again changes nothing. -/
theorem buildChain_bind_orderChain (r : Registry) (names : List String) :
    (r.buildChain names >>= orderChain) = r.buildChain names := by
  cases hchain : r.buildChain names with
  | error e => rfl
  | ok chain =>
    have hbuilt := (buildChain_eq_iff r names _).1 hchain
    cases hbuilt with
    | ordered hl hp _ horder =>
      have hagain : orderChain chain = .ok chain := by
        rw [orderChain_congr horder.kept, orderChain_of_toList hp, ← horder.eq_staged]
      exact hagain

end Registry

/-! ## Running -/

/-- Linkers that are applied one after another, each with the set that it is given: the one that the linker before it made. -/
inductive Relay (c : LinkContext) : ArtifactSet → List (Linker × ArtifactSet) → ArtifactSet → Prop
  | nil (s : ArtifactSet) : Relay c s [] s
  | cons {k : Linker} {s t u : ArtifactSet} {rest : List (Linker × ArtifactSet)} :
      k.run c s = .ok t → Relay c t rest u → Relay c s ((k, s) :: rest) u

/-- How a run of linkers ends, and what was applied to what: all of them, or those through the first that failed. -/
inductive Ended (c : LinkContext) (ks : List Linker) (s : ArtifactSet) :
    Except LinkError ArtifactSet → List (Linker × ArtifactSet) → Prop
  | finished {applied : List (Linker × ArtifactSet)} {t : ArtifactSet} :
      Relay c s applied t → applied.map (·.1) = ks → Ended c ks s (.ok t) applied
  | stopped {applied : List (Linker × ArtifactSet)} {t : ArtifactSet} {k : Linker} {e : LinkError} {after : List Linker} :
      Relay c s applied t → k.run c t = .error e → applied.map (·.1) ++ k :: after = ks →
      Ended c ks s (.error e) (applied ++ [(k, t)])

/-- The note on a linker that is applied to a set. -/
def applicationNote (a : Linker × ArtifactSet) : Note :=
  ⟨.debug, Linking.contextOrigin, "Invoking linker '" ++ a.1.name ++ "' (" ++ Text.decimal a.2.size ++ " artifacts)"⟩

/-- The machine after notes on linkers that were applied, the newest in front. -/
def Machine.noting (machine : Machine) (applied : List (Linker × ArtifactSet)) : Machine :=
  { machine with notes := (applied.map applicationNote).reverse ++ machine.notes }

/-- Notes on two runs are those on the one and then those on the other. -/
theorem Machine.noting_noting (machine : Machine) (l l' : List (Linker × ArtifactSet)) :
    (machine.noting l).noting l' = machine.noting (l ++ l') := by
  simp [noting]

/-- A linker that succeeds is noted, and the rest of the chain is given what it made. -/
theorem perform_runLinkers_of_ok {c : LinkContext} {k : Linker} {s t : ArtifactSet} (h : k.run c s = .ok t)
    (rest : List Linker) (machine : Machine) :
    perform (Linking.runLinkers c (k :: rest) s) machine =
      perform (Linking.runLinkers c rest t) (machine.noting [(k, s)]) := by
  rw [Linking.runLinkers, perform_bind_of_ok (perform_lift ..), perform_bind, perform_except, h]
  rfl

/-- A linker that fails is noted, and ends the run with its error. -/
theorem perform_runLinkers_of_error {c : LinkContext} {k : Linker} {s : ArtifactSet} {e : LinkError}
    (h : k.run c s = .error e) (rest : List Linker) (machine : Machine) :
    perform (Linking.runLinkers c (k :: rest) s) machine = (.error e, machine.noting [(k, s)]) := by
  rw [Linking.runLinkers, perform_bind_of_ok (perform_lift ..), perform_bind, perform_except, h]
  rfl

/-- Linkers that have been applied are noted, and the rest of the chain is given what they made. -/
theorem Relay.perform_runLinkers {c : LinkContext} {s t : ArtifactSet} {applied : List (Linker × ArtifactSet)}
    (h : Relay c s applied t) (rest : List Linker) (machine : Machine) :
    perform (Linking.runLinkers c (applied.map (·.1) ++ rest) s) machine =
      perform (Linking.runLinkers c rest t) (machine.noting applied) := by
  induction h generalizing machine with
  | nil s => rfl
  | @cons k s t u applied hk _ ih =>
    rw [List.map_cons, List.cons_append, perform_runLinkers_of_ok hk, ih, Machine.noting_noting]
    rfl

/-- A run ends as it is said, with a note on each application. -/
theorem Ended.perform_runLinkers {c : LinkContext} {ks : List Linker} {s : ArtifactSet}
    {result : Except LinkError ArtifactSet} {applied : List (Linker × ArtifactSet)} (h : Ended c ks s result applied)
    (machine : Machine) : perform (Linking.runLinkers c ks s) machine = (result, machine.noting applied) := by
  cases h with
  | finished hrelay hks =>
    subst hks
    have hrun := hrelay.perform_runLinkers [] machine
    rw [List.append_nil] at hrun
    exact hrun
  | stopped hrelay hk hks =>
    subst hks
    rw [hrelay.perform_runLinkers, perform_runLinkers_of_error hk, Machine.noting_noting]

/-- Every run of linkers ends in one of the two ways. -/
theorem exists_ended (c : LinkContext) (ks : List Linker) (s : ArtifactSet) :
    ∃ result applied, Ended c ks s result applied := by
  induction ks generalizing s with
  | nil => exact ⟨_, _, .finished (.nil s) rfl⟩
  | cons k ks ih =>
    cases hk : k.run c s with
    | error e => exact ⟨_, _, .stopped (.nil s) hk rfl⟩
    | ok t =>
      obtain ⟨result, applied, h⟩ := ih t
      cases h with
      | finished hrelay hks => exact ⟨_, _, .finished (.cons hk hrelay) (congrArg (k :: ·) hks)⟩
      | stopped hrelay hk' hks => exact ⟨_, _, .stopped (.cons hk hrelay) hk' (congrArg (k :: ·) hks)⟩

/-- A run of linkers ends as it is said, and the log tells what was applied. -/
theorem perform_runLinkers_iff (c : LinkContext) (ks : List Linker) (s : ArtifactSet) (machine : Machine)
    (result : Except LinkError ArtifactSet) (machine' : Machine) :
    perform (Linking.runLinkers c ks s) machine = (result, machine') ↔
      ∃ applied, Ended c ks s result applied ∧ machine' = machine.noting applied := by
  constructor
  · intro h
    obtain ⟨result', applied, hended⟩ := exists_ended c ks s
    rw [hended.perform_runLinkers machine] at h
    obtain ⟨rfl, rfl⟩ := Prod.mk.inj h
    exact ⟨applied, hended, rfl⟩
  · rintro ⟨applied, hended, rfl⟩
    exact hended.perform_runLinkers machine

theorem runChain_eq_foldlM (c : LinkContext) (ks : List Linker) (s : ArtifactSet) :
    runChain c ks s = ks.foldlM (fun s k => k.run c s) s := by
  induction ks generalizing s with
  | nil => rfl
  | cons k ks ih =>
    rw [runChain, List.foldlM_cons]
    cases k.run c s with
    | error e => rfl
    | ok t => exact ih t

/-- What a run gives is what the linkers give without a machine. -/
theorem perform_runLinkers_fst (c : LinkContext) (ks : List Linker) (s : ArtifactSet) (machine : Machine) :
    (perform (Linking.runLinkers c ks s) machine).1 = runChain c ks s := by
  induction ks generalizing s machine with
  | nil => rfl
  | cons k ks ih =>
    cases hk : k.run c s with
    | error e => rw [perform_runLinkers_of_error hk, runChain, hk]
    | ok t => rw [perform_runLinkers_of_ok hk, ih, runChain, hk]

/-- A chain is built as `Registry.Built` says for every registry and all names, and putting it in order again changes nothing.
Running the chain of any link folds its linkers over the set that the link starts from; it ends as `Ended` says, and no linker
is applied but those it tells of. -/
theorem chain_built_and_run (r : Registry) (names : List String) (l : Linking) (machine : Machine) :
    (∀ result, r.buildChain names = result ↔ r.Built names result) ∧
      (r.buildChain names >>= orderChain) = r.buildChain names ∧
      (perform l.invoke machine).1 = l.linkers.foldlM (fun s k => k.run l.context s) l.initial ∧
      ∀ result machine', perform l.invoke machine = (result, machine') ↔
        ∃ applied, Ended l.context l.linkers l.initial result applied ∧ machine' = machine.noting applied := by
  refine ⟨r.buildChain_eq_iff names, r.buildChain_bind_orderChain names, ?_, ?_⟩
  · rw [Linking.invoke, perform_runLinkers_fst, runChain_eq_foldlM]
  · intro result machine'
    exact perform_runLinkers_iff l.context l.linkers l.initial machine result machine'

end DeferredBinding
