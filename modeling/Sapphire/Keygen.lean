import Sapphire.DkgLive

/-!
# In-process key generation

`generate_with_dkg` runs the three parts for everyone in one place, with
inboxes for what part 2 sends. On the outputs of part 1 that a run over the
chain has drawn, it derives the same keys.
-/

namespace Sapphire

open BTreeMap Replay

variable {C : Ciphersuite} {D : DkgWire C}

inductive KeygenFault where
  | err (e : Error)
  | panic (msg : String)
deriving DecidableEq, Repr

namespace Keygen

abbrev Round1Secrets (C : Ciphersuite) := BTreeMap C.Identifier C.Round1Secret

abbrev Round1Packages (C : Ciphersuite) := BTreeMap C.Identifier C.Round1Package

abbrev Round2Secrets (C : Ciphersuite) := BTreeMap C.Identifier C.Round2Secret

abbrev Inboxes (C : Ciphersuite) := BTreeMap C.Identifier (BTreeMap C.Identifier C.Round2Package)

abbrev KeyPackages (C : Ciphersuite) := BTreeMap C.Identifier C.KeyPackage

-- by name, so that maps over inboxes and packages carry one term
def noBox : BTreeMap C.Identifier C.Round2Package := ∅

def frost (e : C.Error) : KeygenFault := .err (.frost (C.errorToString e))

/-- `1..=total`. -/
def numbers (total : UInt16) : List UInt16 := (List.range total.toNat).map fun k => UInt16.ofNat (k + 1)

/-- Round 1, over the numbers; `toIdentifier` is `u16`'s `try_into`. -/
def round1 (toIdentifier : UInt16 → Except C.Error C.Identifier) (params : MpcParams) (secrets : Round1Secrets C)
    (publics : Round1Packages C) (rng : C.Rng) :
    List UInt16 → Except KeygenFault (Round1Secrets C × Round1Packages C) × C.Rng
  | [] => (.ok (secrets, publics), rng)
  | i :: rest =>
    match toIdentifier i with
    | .error e => (.error (frost e), rng)
    | .ok id =>
      match C.part1 id params.total params.threshold rng with
      | (.error e, rng) => (.error (frost e), rng)
      | (.ok (secretPkg, publicPkg), rng) =>
        round1 toIdentifier params (secrets.insert id secretPkg) (publics.insert id publicPkg) rng rest

def othersOf (publics : Round1Packages C) (id : C.Identifier) : Round1Packages C :=
  Std.ExtTreeMap.ofList (publics.toList.filter fun entry => entry.1 ≠ id)

def emptyInboxes (publics : Round1Packages C) : Inboxes C :=
  Std.ExtTreeMap.ofList (publics.toList.map fun entry => (entry.1, noBox))

/-- Each round-2 package of `id` into its recipient's inbox. -/
def distribute (id : C.Identifier) (inbox : Inboxes C) : List (C.Identifier × C.Round2Package) →
    Except KeygenFault (Inboxes C)
  | [] => .ok inbox
  | (recipient, pkg) :: rest =>
    match inbox[recipient]? with
    | none => .error (.panic "recipient inbox preallocated")
    | some box => distribute id (inbox.insert recipient (box.insert id pkg)) rest

def round2 (publics : Round1Packages C) (secrets : Round2Secrets C) (inbox : Inboxes C) :
    List (C.Identifier × C.Round1Secret) → Except KeygenFault (Round2Secrets C × Inboxes C)
  | [] => .ok (secrets, inbox)
  | (id, secretR1) :: rest =>
    match C.part2 secretR1 (othersOf publics id) with
    | .error e => .error (frost e)
    | .ok (secretR2, sentR2) =>
      match distribute id inbox sentR2.toList with
      | .error f => .error f
      | .ok inbox => round2 publics (secrets.insert id secretR2) inbox rest

def round3 (publics : Round1Packages C) (inbox : Inboxes C) (keyPackages : KeyPackages C)
    (groupPkp : Option C.PublicKeyPackage) :
    List (C.Identifier × C.Round2Secret) → Except KeygenFault (KeyPackages C × Option C.PublicKeyPackage)
  | [] => .ok (keyPackages, groupPkp)
  | (id, secretR2) :: rest =>
    match inbox[id]? with
    | none => .error (.panic "inbox present")
    | some receivedR2 =>
      match C.part3 secretR2 (othersOf publics id) receivedR2 with
      | .error e => .error (frost e)
      | .ok (keyPkg, pkp) =>
        match groupPkp with
        | none => round3 publics (inbox.erase id) (keyPackages.insert id keyPkg) (some pkp) rest
        | some existing =>
          if C.verifyingKey existing ≠ C.verifyingKey pkp then
            .error (.err (.frost "DKG inconsistency: participants disagree on group verifying key"))
          else round3 publics (inbox.erase id) (keyPackages.insert id keyPkg) (some existing) rest

def generateWithDkg (toIdentifier : UInt16 → Except C.Error C.Identifier) (params : MpcParams) (rng : C.Rng) :
    Except KeygenFault (KeyPackages C × C.PublicKeyPackage) × C.Rng :=
  match round1 toIdentifier params ∅ ∅ rng (numbers params.total) with
  | (.error f, rng) => (.error f, rng)
  | (.ok (secretsR1, publicsR1), rng) =>
    match round2 publicsR1 ∅ (emptyInboxes publicsR1) secretsR1.toList with
    | .error f => (.error f, rng)
    | .ok (secretsR2, inboxR2) =>
      match round3 publicsR1 inboxR2 ∅ none secretsR2.toList with
      | .error f => (.error f, rng)
      | .ok (_, none) => (.error (.panic "at least one participant"), rng)
      | .ok (keyPackages, some pkp) => (.ok (keyPackages, pkp), rng)

/-! ## Round 1 -/

/-- Drawing in the order of `ids` gives the transcript's outputs. -/
def Draws (T : Transcript C) (params : MpcParams) : List C.Identifier → C.Rng → Prop
  | [], _ => True
  | id :: ids, rng =>
    (C.part1 id params.total params.threshold rng).1 = .ok (T.round1 id) ∧
      Draws T params ids (C.part1 id params.total params.threshold rng).2

theorem getElem?_empty_done {V : Type} {P : C.Identifier → V → Prop} (i : C.Identifier) (v : V) :
    (∅ : BTreeMap C.Identifier V)[i]? = some v ↔ i ∈ (∅ : Finset C.Identifier) ∧ P i v := by simp

theorem dom_of_done {V : Type} {P : C.Identifier → V → Prop} {done : Finset C.Identifier}
    {map : BTreeMap C.Identifier V}
    (h : ∀ (i : C.Identifier) v, map[i]? = some v ↔ i ∈ done ∧ P i v) (hsome : ∀ i ∈ done, ∃ v, P i v) :
    dom map = done := by
  ext i
  rw [mem_dom, mem_iff]
  constructor
  · intro hmem
    obtain ⟨v, hv⟩ := hmem
    exact ((h i v).mp hv).1
  · intro hi
    obtain ⟨v, hv⟩ := hsome i hi
    exact ⟨v, (h i v).mpr ⟨hi, hv⟩⟩

theorem getElem?_insert_done {V : Type} {P : C.Identifier → V → Prop} {done : Finset C.Identifier}
    {m : BTreeMap C.Identifier V} (h : ∀ (i : C.Identifier) v, m[i]? = some v ↔ i ∈ done ∧ P i v) {id : C.Identifier}
    {new : V} (hnew : P id new) (hunique : ∀ v, P id v → new = v) (i : C.Identifier) (v : V) :
    (m.insert id new)[i]? = some v ↔ i ∈ insert id done ∧ P i v := by
  rw [getElem?_insert', Finset.mem_insert]
  by_cases hi : id = i
  · subst hi
    simp only [if_true, Option.some.injEq, true_or, true_and]
    constructor
    · intro heq
      rw [← heq]
      exact hnew
    · exact hunique v
  · simp [hi, h, Ne.symm hi]

theorem union_toFinset_cons (done : Finset C.Identifier) (id : C.Identifier) (ids : List C.Identifier) :
    done ∪ (id :: ids).toFinset = insert id done ∪ ids.toFinset := by
  rw [List.toFinset_cons, Finset.insert_union, Finset.union_insert]

theorem round1_draws {T : Transcript C} {toIdentifier : UInt16 → Except C.Error C.Identifier} {params : MpcParams}
    {done : Finset C.Identifier} : ∀ {numbers : List UInt16} {ids : List C.Identifier} {rng : C.Rng}
      {secrets : Round1Secrets C} {publics : Round1Packages C}, numbers.map toIdentifier = ids.map .ok →
      Draws T params ids rng →
      (∀ (i : C.Identifier) s, secrets[i]? = some s ↔ i ∈ done ∧ (T.round1 i).1 = s) →
      (∀ (i : C.Identifier) p, publics[i]? = some p ↔ i ∈ done ∧ (T.round1 i).2 = p) →
      ∃ secrets' publics' rng', round1 toIdentifier params secrets publics rng numbers = (.ok (secrets', publics'), rng') ∧
        (∀ (i : C.Identifier) s, secrets'[i]? = some s ↔ i ∈ done ∪ ids.toFinset ∧ (T.round1 i).1 = s) ∧
        ∀ (i : C.Identifier) p, publics'[i]? = some p ↔ i ∈ done ∪ ids.toFinset ∧ (T.round1 i).2 = p := by
  intro numbers
  induction numbers generalizing done with
  | nil =>
    intro ids rng secrets publics hids _ hs hp
    cases ids with
    | nil => exact ⟨secrets, publics, rng, rfl, by simpa using hs, by simpa using hp⟩
    | cons id ids => cases hids
  | cons n numbers ih =>
    intro ids rng secrets publics hids hdraws hs hp
    cases ids with
    | nil => cases hids
    | cons id ids =>
      obtain ⟨hid, hids⟩ := List.cons.inj hids
      obtain ⟨hdraw, hrest⟩ := hdraws
      obtain ⟨secrets', publics', rng', hrun, hs', hp'⟩ := ih hids hrest
        (getElem?_insert_done hs rfl fun _ heq => heq) (getElem?_insert_done hp rfl fun _ heq => heq)
      refine ⟨secrets', publics', rng', ?_, ?_, ?_⟩
      · rw [round1, hid]
        cases hpart : C.part1 id params.total params.threshold rng with
        | mk r rng₁ =>
          rw [hpart] at hdraw hrun
          dsimp only at hdraw
          subst hdraw
          simp only [hpart]
          exact hrun
      · rw [union_toFinset_cons]; exact hs'
      · rw [union_toFinset_cons]; exact hp'

/-! ## Round 2 -/

theorem othersOf_eq {T : Transcript C} {publics : Round1Packages C}
    (h : ∀ (i : C.Identifier) p, publics[i]? = some p ↔ i ∈ T.members ∧ (T.round1 i).2 = p) (id : C.Identifier) :
    othersOf publics id = T.others id := by
  refine eq_of_getElem?_iff fun j pkg => ?_
  unfold othersOf
  rw [getElem?_ofList_filter, h, Transcript.getElem?_others]
  simp only [ne_eq, decide_eq_true_eq]
  tauto

theorem getElem?_emptyInboxes {publics : Round1Packages C} {i : C.Identifier}
    {box : BTreeMap C.Identifier C.Round2Package} :
    (emptyInboxes publics)[i]? = some box ↔ i ∈ publics ∧ box = ∅ := by
  have hd : ((publics.toList.map fun entry => (entry.1, noBox (C := C))).map Prod.fst).Nodup := by
    rw [List.map_map]
    have hkeys := publics.nodup_keys
    rw [← publics.map_fst_toList_eq_keys] at hkeys
    exact hkeys
  unfold emptyInboxes
  rw [getElem?_ofList hd, mem_iff]
  simp only [List.mem_map, Prod.mk.injEq, noBox]
  constructor
  · rintro ⟨⟨k, p⟩, hk, rfl, rfl⟩
    exact ⟨⟨p, Std.ExtTreeMap.mem_toList_iff_getElem?_eq_some.mp hk⟩, rfl⟩
  · rintro ⟨⟨p, hp⟩, rfl⟩
    exact ⟨(i, p), Std.ExtTreeMap.mem_toList_iff_getElem?_eq_some.mpr hp, rfl, rfl⟩

/-- The inboxes of the members hold what those done have sent. -/
structure Delivered (T : Transcript C) (done : Finset C.Identifier) (inbox : Inboxes C) : Prop where
  present : ∀ i ∈ T.members, i ∈ inbox
  box : ∀ (i : C.Identifier) box, inbox[i]? = some box → ∀ (j : C.Identifier) pkg, box[j]? = some pkg ↔
    j ∈ done ∧ ∃ secretR2 sent, T.Sends j secretR2 sent ∧ sent[i]? = some pkg

theorem delivered_empty {T : Transcript C} {publics : Round1Packages C}
    (hpublics : ∀ (i : C.Identifier) p, publics[i]? = some p ↔ i ∈ T.members ∧ (T.round1 i).2 = p) :
    Delivered T ∅ (emptyInboxes publics) := by
  constructor
  · intro i hi
    have hp : i ∈ publics := mem_of_getElem? ((hpublics i _).mpr ⟨hi, rfl⟩)
    exact mem_of_getElem? (getElem?_emptyInboxes.mpr ⟨hp, rfl⟩)
  · intro i box hbox j pkg
    rw [(getElem?_emptyInboxes.mp hbox).2]
    simp

/-- Where all have sent, and nobody to itself. -/
theorem Delivered.receives {T : Transcript C} {inbox : Inboxes C} (h : Delivered T T.members inbox)
    (hsends : ∀ i ∈ T.members, ∃ secretR2 sent, T.Sends i secretR2 sent ∧ dom sent ⊆ T.members.erase i)
    {i : C.Identifier} (hi : i ∈ T.members) : ∃ box, inbox[i]? = some box ∧ T.Receives i box := by
  obtain ⟨box, hbox⟩ := mem_iff.mp (h.present i hi)
  refine ⟨box, hbox, fun j pkg => ?_⟩
  rw [h.box i box hbox]
  constructor
  · intro hreceived
    obtain ⟨hj, secretR2, sent, hsent, hpkg⟩ := hreceived
    refine ⟨hj, ?_, secretR2, sent, hsent, hpkg⟩
    intro heq
    subst heq
    obtain ⟨_, sent', hsent', hdom⟩ := hsends _ hj
    obtain ⟨_, rfl⟩ := hsent.unique hsent'
    exact Finset.notMem_erase _ _ (hdom (mem_dom.mpr (mem_of_getElem? hpkg)))
  · intro hreceived
    exact ⟨hreceived.1, hreceived.2.2⟩

theorem distribute_box (id : C.Identifier) : ∀ {l : List (C.Identifier × C.Round2Package)} {inbox : Inboxes C},
    (∀ entry ∈ l, entry.1 ∈ inbox) → (l.map Prod.fst).Nodup → ∃ inbox', distribute id inbox l = .ok inbox' ∧
      (∀ i, i ∈ inbox → i ∈ inbox') ∧
      ∀ (i : C.Identifier) box', inbox'[i]? = some box' → ∃ box, inbox[i]? = some box ∧
        ∀ (j : C.Identifier) pkg, box'[j]? = some pkg ↔
          j = id ∧ (i, pkg) ∈ l ∨ (j = id → i ∉ l.map Prod.fst) ∧ box[j]? = some pkg
  | [], inbox, _, _ => ⟨inbox, rfl, fun _ h => h, fun i box h => ⟨box, h, by simp⟩⟩
  | (recipient, pkg) :: l, inbox, hin, hd => by
    rw [List.map_cons, List.nodup_cons] at hd
    obtain ⟨hnew, hd⟩ := hd
    obtain ⟨box₀, hbox₀⟩ := mem_iff.mp (hin (recipient, pkg) (by simp))
    have hin' : ∀ entry ∈ l, entry.1 ∈ inbox.insert recipient (box₀.insert id pkg) := fun entry he =>
      mem_insert'.mpr (Or.inr (hin entry (List.mem_cons_of_mem _ he)))
    obtain ⟨inbox', hrun, hkeep, hboxes⟩ := distribute_box id hin' hd
    refine ⟨inbox', by rw [distribute, hbox₀]; exact hrun, fun i hi => hkeep i (mem_insert'.mpr (Or.inr hi)), ?_⟩
    intro i box' hbox'
    obtain ⟨box, hbox, hall⟩ := hboxes i box' hbox'
    rw [getElem?_insert'] at hbox
    by_cases hi : recipient = i
    · subst hi
      rw [if_pos rfl] at hbox
      cases hbox
      have hnone : ∀ pkg', (recipient, pkg') ∉ l := fun pkg' hm => hnew (List.mem_map.mpr ⟨_, hm, rfl⟩)
      refine ⟨box₀, hbox₀, fun j pkg' => ?_⟩
      rw [hall, getElem?_insert']
      by_cases hj : j = id
      · subst hj
        simp [hnone, hnew, eq_comm]
      · simp [hj, Ne.symm hj]
    · rw [if_neg hi] at hbox
      refine ⟨box, hbox, fun j pkg' => ?_⟩
      rw [hall]
      simp [Ne.symm hi]

theorem Delivered.distribute {T : Transcript C} {done : Finset C.Identifier} {inbox : Inboxes C}
    (h : Delivered T done inbox) {id : C.Identifier} (hid : id ∉ done) {secretR2 : C.Round2Secret}
    {sent : BTreeMap C.Identifier C.Round2Package} (hs : T.Sends id secretR2 sent) (hdom : dom sent ⊆ T.members) :
    ∃ inbox', distribute id inbox sent.toList = .ok inbox' ∧ Delivered T (insert id done) inbox' := by
  have hin : ∀ entry ∈ sent.toList, entry.1 ∈ inbox := fun entry he =>
    h.present _ (hdom (mem_dom.mpr (mem_of_getElem? (Std.ExtTreeMap.mem_toList_iff_getElem?_eq_some.mp he))))
  have hd : (sent.toList.map Prod.fst).Nodup := by
    rw [sent.map_fst_toList_eq_keys]; exact sent.nodup_keys
  obtain ⟨inbox', hrun, hkeep, hboxes⟩ := distribute_box id hin hd
  refine ⟨inbox', hrun, fun i hi => hkeep i (h.present i hi), fun i box' hbox' j pkg => ?_⟩
  obtain ⟨box, hbox, hall⟩ := hboxes i box' hbox'
  rw [hall, h.box i box hbox, Finset.mem_insert, Std.ExtTreeMap.mem_toList_iff_getElem?_eq_some]
  by_cases hj : j = id
  · subst hj
    constructor
    · rintro (⟨_, hpkg⟩ | ⟨_, hmem, _⟩)
      · exact ⟨Or.inl rfl, secretR2, sent, hs, hpkg⟩
      · exact absurd hmem hid
    · rintro ⟨_, secretR2', sent', hs', hpkg⟩
      obtain ⟨_, rfl⟩ := hs.unique hs'
      exact Or.inl ⟨rfl, hpkg⟩
  · simp [hj]

theorem round2_delivers {T : Transcript C} {publics : Round1Packages C}
    (hothers : ∀ id, othersOf publics id = T.others id)
    (hsends : ∀ i ∈ T.members, ∃ secretR2 sent, T.Sends i secretR2 sent ∧ dom sent ⊆ T.members) :
    ∀ {l : List (C.Identifier × C.Round1Secret)} {done : Finset C.Identifier} {secrets : Round2Secrets C}
      {inbox : Inboxes C}, (l.map Prod.fst).Nodup → (∀ entry ∈ l, entry.1 ∈ T.members ∧ entry.1 ∉ done ∧
        (T.round1 entry.1).1 = entry.2) →
      (∀ (i : C.Identifier) s, secrets[i]? = some s ↔ i ∈ done ∧ ∃ sent, T.Sends i s sent) → Delivered T done inbox →
      ∃ secrets' inbox', round2 publics secrets inbox l = .ok (secrets', inbox') ∧
        (∀ (i : C.Identifier) s, secrets'[i]? = some s ↔ i ∈ done ∪ (l.map Prod.fst).toFinset ∧ ∃ sent, T.Sends i s sent) ∧
        Delivered T (done ∪ (l.map Prod.fst).toFinset) inbox' := by
  intro l
  induction l with
  | nil =>
    intro done secrets inbox _ _ hsec hdel
    exact ⟨secrets, inbox, rfl, by simpa using hsec, by simpa using hdel⟩
  | cons entry l ih =>
    intro done secrets inbox hd hl hsec hdel
    obtain ⟨id, secretR1⟩ := entry
    rw [List.map_cons, List.nodup_cons] at hd
    obtain ⟨hnew, hd⟩ := hd
    obtain ⟨hmem, hdone, hsecret⟩ := hl (id, secretR1) (by simp)
    dsimp only at hmem hdone hsecret
    obtain ⟨secretR2, sent, hs, hdom⟩ := hsends id hmem
    obtain ⟨inbox₁, hrun₁, hdel₁⟩ := hdel.distribute hdone hs hdom
    have hl' : ∀ entry ∈ l, entry.1 ∈ T.members ∧ entry.1 ∉ insert id done ∧ (T.round1 entry.1).1 = entry.2 := by
      intro entry he
      obtain ⟨h1, h2, h3⟩ := hl entry (List.mem_cons_of_mem _ he)
      refine ⟨h1, fun hi => ?_, h3⟩
      rcases Finset.mem_insert.mp hi with heq | hi
      · exact hnew (heq ▸ List.mem_map.mpr ⟨entry, he, rfl⟩)
      · exact h2 hi
    have hsec' : ∀ (i : C.Identifier) s, (secrets.insert id secretR2)[i]? = some s ↔
        i ∈ insert id done ∧ ∃ sent, T.Sends i s sent := by
      apply getElem?_insert_done hsec ⟨sent, hs⟩
      intro s hsent
      obtain ⟨sent', hs'⟩ := hsent
      exact (hs.unique hs').1
    obtain ⟨secrets', inbox', hrun, hsecrets, hdelivered⟩ := ih hd hl' hsec' hdel₁
    refine ⟨secrets', inbox', ?_, ?_, ?_⟩
    · rw [round2, hothers, ← hsecret, show C.part2 (T.round1 id).1 (T.others id) = .ok (secretR2, sent) from hs]
      simp only [hrun₁]
      exact hrun
    · rw [List.map_cons, union_toFinset_cons]; exact hsecrets
    · rw [List.map_cons, union_toFinset_cons]; exact hdelivered

/-! ## Round 3 -/

/-- The package kept for the group is the one there was, or this one. -/
theorem round3_cons {publics : Round1Packages C} {inbox : Inboxes C} {keys : KeyPackages C}
    {groupPkp : Option C.PublicKeyPackage} {ref : C.PublicKeyPackage} {id : C.Identifier} {secretR2 : C.Round2Secret}
    {box : BTreeMap C.Identifier C.Round2Package} {keyPkg : C.KeyPackage} {pkp : C.PublicKeyPackage}
    (hbox : inbox[id]? = some box) (hpart3 : C.part3 secretR2 (othersOf publics id) box = .ok (keyPkg, pkp))
    (hgroup : ∀ p, groupPkp = some p → C.Agree p ref) (hagree : C.Agree pkp ref)
    (l : List (C.Identifier × C.Round2Secret)) :
    ∃ next, round3 publics inbox keys groupPkp ((id, secretR2) :: l) =
      round3 publics (inbox.erase id) (keys.insert id keyPkg) (some next) l ∧ C.Agree next ref := by
  rw [round3, hbox]
  simp only [hpart3]
  cases groupPkp with
  | none => exact ⟨pkp, rfl, hagree⟩
  | some existing =>
    have hex := hgroup existing rfl
    refine ⟨existing, if_neg ?_, hex⟩
    simp [hex.1.trans hagree.1.symm]

theorem round3_derives {T : Transcript C} {publics : Round1Packages C} {ref : C.PublicKeyPackage}
    (hothers : ∀ id, othersOf publics id = T.others id)
    (hderives : ∀ i ∈ T.members, ∃ keyPkg pkp, T.Derives i keyPkg pkp ∧ C.Agree pkp ref) :
    ∀ {l : List (C.Identifier × C.Round2Secret)} {inbox : Inboxes C} {done : Finset C.Identifier} {keys : KeyPackages C}
      {groupPkp : Option C.PublicKeyPackage}, (l.map Prod.fst).Nodup →
      (∀ entry ∈ l, entry.1 ∈ T.members ∧ (∃ sent, T.Sends entry.1 entry.2 sent) ∧
        ∃ box, inbox[entry.1]? = some box ∧ T.Receives entry.1 box) →
      (∀ (i : C.Identifier) k, keys[i]? = some k ↔ i ∈ done ∧ ∃ pkp, T.Derives i k pkp) →
      (∀ pkp, groupPkp = some pkp → C.Agree pkp ref) →
      ∃ keys' groupPkp', round3 publics inbox keys groupPkp l = .ok (keys', groupPkp') ∧
        (∀ (i : C.Identifier) k, keys'[i]? = some k ↔ i ∈ done ∪ (l.map Prod.fst).toFinset ∧ ∃ pkp, T.Derives i k pkp) ∧
        (∀ pkp, groupPkp' = some pkp → C.Agree pkp ref) ∧ (groupPkp.isSome ∨ l ≠ [] → groupPkp'.isSome) := by
  intro l
  induction l with
  | nil =>
    intro inbox done keys groupPkp _ _ hkeys hgroup
    exact ⟨keys, groupPkp, rfl, by simpa using hkeys, hgroup, by simp⟩
  | cons entry l ih =>
    intro inbox done keys groupPkp hd hl hkeys hgroup
    obtain ⟨id, secretR2⟩ := entry
    rw [List.map_cons, List.nodup_cons] at hd
    obtain ⟨hnew, hd⟩ := hd
    obtain ⟨hmem, ⟨sent, hs⟩, box, hbox, hreceives⟩ := hl (id, secretR2) (by simp)
    dsimp only at hmem hs hbox hreceives
    obtain ⟨keyPkg, pkp, hderive, hagree⟩ := hderives id hmem
    have hpart3 : C.part3 secretR2 (T.others id) box = .ok (keyPkg, pkp) := by
      obtain ⟨secretR2', sent', box', hs', hreceives', hp⟩ := hderive
      obtain ⟨rfl, _⟩ := hs.unique hs'
      rw [hreceives.unique hreceives']; exact hp
    have hl' : ∀ entry ∈ l, entry.1 ∈ T.members ∧ (∃ sent, T.Sends entry.1 entry.2 sent) ∧
        ∃ box, (inbox.erase id)[entry.1]? = some box ∧ T.Receives entry.1 box := by
      intro entry he
      obtain ⟨h1, h2, box', hbox', h4⟩ := hl entry (List.mem_cons_of_mem _ he)
      refine ⟨h1, h2, box', ?_, h4⟩
      have hne : id ≠ entry.1 := fun heq => hnew (heq ▸ List.mem_map.mpr ⟨entry, he, rfl⟩)
      rw [getElem?_erase', if_neg hne]; exact hbox'
    have hkeys' : ∀ (i : C.Identifier) k, (keys.insert id keyPkg)[i]? = some k ↔
        i ∈ insert id done ∧ ∃ pkp, T.Derives i k pkp := by
      apply getElem?_insert_done hkeys ⟨pkp, hderive⟩
      intro k hk
      obtain ⟨pkp', hderive'⟩ := hk
      exact (hderive.unique hderive').1
    rw [← hothers] at hpart3
    obtain ⟨next, hrun₁, hnext⟩ := round3_cons hbox hpart3 hgroup hagree l
    have hkept : ∀ p, some next = some p → C.Agree p ref := by
      intro p hp
      cases hp
      exact hnext
    obtain ⟨keys', groupPkp', hrun, hk, hg, hsome⟩ := ih hd hl' hkeys' hkept
    refine ⟨keys', groupPkp', hrun₁.trans hrun, ?_, hg, fun _ => hsome (Or.inl rfl)⟩
    rw [List.map_cons, union_toFinset_cons]; exact hk

/-! ## The same keys -/

theorem length_numbers (total : UInt16) : (numbers total).length = total.toNat := by simp [numbers]

theorem length_ids {toIdentifier : UInt16 → Except C.Error C.Identifier} {total : UInt16} {ids : List C.Identifier}
    (hids : (numbers total).map toIdentifier = ids.map .ok) : ids.length = total.toNat := by
  have hlen := congrArg List.length hids
  rw [List.length_map, List.length_map, length_numbers] at hlen
  exact hlen.symm

/-- Where every member derives its keys and the packages agree, the batch
returns all of them, and a package that agrees. -/
theorem generate_derives {T : Transcript C} {toIdentifier : UInt16 → Except C.Error C.Identifier} {params : MpcParams}
    {ids : List C.Identifier} (hids : (numbers params.total).map toIdentifier = ids.map .ok)
    (hmembers : T.members = ids.toFinset) (htotal : 1 ≤ params.total.toNat)
    (hsends : ∀ i ∈ T.members, ∃ secretR2 sent, T.Sends i secretR2 sent ∧ dom sent ⊆ T.members.erase i)
    {ref : C.PublicKeyPackage} (hderives : ∀ i ∈ T.members, ∃ keyPkg pkp, T.Derives i keyPkg pkp ∧ C.Agree pkp ref)
    {rng : C.Rng} (hdraws : Draws T params ids rng) :
    ∃ keyPackages pkp, (generateWithDkg toIdentifier params rng).1 = .ok (keyPackages, pkp) ∧
      (∀ (i : C.Identifier) k, keyPackages[i]? = some k ↔ i ∈ T.members ∧ ∃ pkp, T.Derives i k pkp) ∧
      C.Agree pkp ref := by
  obtain ⟨secrets, publics, rng', hround1, hsecrets, hpublics⟩ :=
    round1_draws hids hdraws getElem?_empty_done getElem?_empty_done
  rw [Finset.empty_union, ← hmembers] at hsecrets hpublics
  have hothers := othersOf_eq hpublics
  have hsends' : ∀ i ∈ T.members, ∃ secretR2 sent, T.Sends i secretR2 sent ∧ dom sent ⊆ T.members := by
    intro i hi
    obtain ⟨secretR2, sent, hs, hdom⟩ := hsends i hi
    exact ⟨secretR2, sent, hs, hdom.trans (Finset.erase_subset _ _)⟩
  have hentries : ∀ entry ∈ secrets.toList, entry.1 ∈ T.members ∧ entry.1 ∉ (∅ : Finset C.Identifier) ∧
      (T.round1 entry.1).1 = entry.2 := by
    intro entry he
    obtain ⟨hi, heq⟩ := (hsecrets entry.1 entry.2).mp (Std.ExtTreeMap.mem_toList_iff_getElem?_eq_some.mp he)
    exact ⟨hi, by simp, heq⟩
  obtain ⟨secretsR2, inboxR2, hround2, hsecretsR2, hdelivered⟩ := round2_delivers hothers hsends'
    (nodup_toList_keys secrets) hentries getElem?_empty_done (delivered_empty hpublics)
  rw [toList_keys, show dom secrets = T.members from dom_of_getElem?_iff hsecrets, Finset.empty_union]
    at hsecretsR2 hdelivered
  have hdomR2 : dom secretsR2 = T.members := by
    apply dom_of_done hsecretsR2
    intro i hi
    obtain ⟨secretR2, sent, hs, _⟩ := hsends i hi
    exact ⟨secretR2, sent, hs⟩
  have hready : ∀ entry ∈ secretsR2.toList, entry.1 ∈ T.members ∧ (∃ sent, T.Sends entry.1 entry.2 sent) ∧
      ∃ box, inboxR2[entry.1]? = some box ∧ T.Receives entry.1 box := by
    intro entry he
    obtain ⟨hi, hs⟩ := (hsecretsR2 entry.1 entry.2).mp (Std.ExtTreeMap.mem_toList_iff_getElem?_eq_some.mp he)
    exact ⟨hi, hs, hdelivered.receives hsends hi⟩
  have hnoGroup : ∀ pkp, (none : Option C.PublicKeyPackage) = some pkp → C.Agree pkp ref := by simp
  obtain ⟨keys, groupPkp, hround3, hkeys, hgroup, hsome⟩ := round3_derives hothers hderives
    (nodup_toList_keys secretsR2) hready getElem?_empty_done hnoGroup
  rw [toList_keys, hdomR2, Finset.empty_union] at hkeys
  have hne : secretsR2.toList ≠ [] := by
    intro hnil
    have hzero : T.members = ∅ := by
      rw [← hdomR2, ← toList_keys, hnil]; rfl
    have hlen := length_ids hids
    rw [hmembers, List.toFinset_eq_empty_iff] at hzero
    rw [hzero, List.length_nil] at hlen
    omega
  obtain ⟨pkp, hpkp⟩ := Option.isSome_iff_exists.mp (hsome (Or.inr hne))
  refine ⟨keys, pkp, ?_, hkeys, hgroup pkp hpkp⟩
  unfold generateWithDkg
  simp only [hround1, hround2, hround3, hpkp]

end Keygen

/-- **The same protocol.** Where a run over the chain with these outputs of part 1 promotes
a group, the batch on the same outputs gives every participant the key package
it derived from the chain, and a package that agrees with the promoted one. -/
theorem keygen_matches_chain (hwire : WireLaws D)
    (hpart2 : ∀ secret others secretR2 sent, C.part2 secret others = .ok (secretR2, sent) → dom sent = dom others)
    {toIdentifier : UInt16 → Except C.Error C.Identifier} {params : MpcParams} (htotal : 1 ≤ params.total.toNat)
    {ids : List C.Identifier} (hids : (Keygen.numbers params.total).map toIdentifier = ids.map .ok) (hd : ids.Nodup)
    (round1 : C.Identifier → C.Round1Secret × C.Round1Package) {seed : C.Identifier → C.Rng}
    {events : List (DkgEvent C)}
    (hcalls : ∀ call ∈ (dkgStart D seed params ids).part1Calls events, call.2 = .ok (round1 call.1))
    {g : GroupConfig C} (hg : (dkgRun D seed params ids events).chain.state.group = some g) {rng : C.Rng}
    (hdraws : Keygen.Draws { members := ids.toFinset, round1 } params ids rng) :
    ∃ keyPackages pkp, (Keygen.generateWithDkg toIdentifier params rng).1 = .ok (keyPackages, pkp) ∧
      dom keyPackages = ids.toFinset ∧
      (∀ i ∈ ids, keyPackages[i]? = ((dkgRun D seed params ids events).participant i).keyPackage) ∧
      C.Agree pkp g.pkp := by
  let T : Transcript C := { members := ids.toFinset, round1 }
  have hlen := Keygen.length_ids hids
  have hfaithful := dkgRun_faithful hwire (T := T) (dom_advertise hd) ((size_advertise hd).trans hlen)
    (dkgStart_faithful hd) hcalls
  have hprom := hfaithful.promoted hg
  have hfinal : ∀ i ∈ T.members, ∃ keyPkg pkp, T.Derives i keyPkg pkp ∧
      ((dkgRun D seed params ids events).participant i).keyPackage = some keyPkg ∧ C.Agree pkp g.pkp := by
    intro i hi
    have hv : i ∈ advertise D seed ids := by rw [← mem_dom, dom_advertise hd]; exact hi
    obtain ⟨pkp, ⟨keyPkg, hderive, hkey, _⟩, hagree⟩ := hprom.finalized i hv
    exact ⟨keyPkg, pkp, hderive, hkey, hagree⟩
  have hsends : ∀ i ∈ T.members, ∃ secretR2 sent, T.Sends i secretR2 sent ∧ dom sent ⊆ T.members.erase i := by
    intro i hi
    obtain ⟨_, _, ⟨secretR2, sent, _, hs, _, _⟩, _, _⟩ := hfinal i hi
    refine ⟨secretR2, sent, hs, ?_⟩
    rw [hpart2 _ _ _ _ hs, Transcript.others, dom_tabulate]
  have hderives : ∀ i ∈ T.members, ∃ keyPkg pkp, T.Derives i keyPkg pkp ∧ C.Agree pkp g.pkp := by
    intro i hi
    obtain ⟨keyPkg, pkp, hderive, _, hagree⟩ := hfinal i hi
    exact ⟨keyPkg, pkp, hderive, hagree⟩
  obtain ⟨keyPackages, pkp, hrun, hkeys, hagree⟩ :=
    Keygen.generate_derives hids (T := T) rfl htotal hsends hderives hdraws
  refine ⟨keyPackages, pkp, hrun, ?_, fun i hi => ?_, hagree⟩
  · apply Keygen.dom_of_done hkeys
    intro i hi
    obtain ⟨keyPkg, p, hderive, _⟩ := hderives i hi
    exact ⟨keyPkg, p, hderive⟩
  · obtain ⟨keyPkg, p, hderive, hkey, _⟩ := hfinal i (List.mem_toFinset.mpr hi)
    rw [hkey]
    exact (hkeys i keyPkg).mpr ⟨List.mem_toFinset.mpr hi, p, hderive⟩

namespace Ideal

def dkgRound1 (i : Nat) : Round1Secret × Int :=
  ({ identifier := i, total := 2, minSigners := 2, coefficient := 9 + i }, 9 + i)

/-- Part 2 addresses exactly those whose packages it is given. -/
theorem part2_dom (secret : Round1Secret) (others : BTreeMap Nat Int) (secretR2 : Round1Secret)
    (sent : BTreeMap Nat (Int × Nat)) (h : part2 secret others = .ok (secretR2, sent)) : dom sent = dom others := by
  unfold part2 at h
  split at h
  · cases h
  · cases h
    ext i
    rw [mem_dom, Std.ExtTreeMap.mem_map, mem_dom]

theorem dkgEvents_promote : (dkgRun box id pair dkgIds dkgEvents).chain.state.group.isSome = true := rfl

end Ideal

theorem keygen_matches_chain_pair :
    ∃ g, (dkgRun Ideal.box id Ideal.pair Ideal.dkgIds Ideal.dkgEvents).chain.state.group = some g ∧
    ∃ keyPackages pkp,
      (Keygen.generateWithDkg (C := Ideal.suite) (fun n => .ok n.toNat) Ideal.pair (10 : Nat)).1 =
        .ok (keyPackages, pkp) ∧
      dom keyPackages = Ideal.dkgIds.toFinset ∧
      (∀ i ∈ Ideal.dkgIds, keyPackages[i]? =
        ((dkgRun Ideal.box id Ideal.pair Ideal.dkgIds Ideal.dkgEvents).participant i).keyPackage) ∧
      Ideal.suite.Agree pkp g.pkp := by
  obtain ⟨g, hg⟩ := Option.isSome_iff_exists.mp Ideal.dkgEvents_promote
  refine ⟨g, hg, keygen_matches_chain Ideal.boxLaws ?_ (by decide) rfl (by decide) Ideal.dkgRound1 ?_ hg ?_⟩
  · exact Ideal.part2_dom
  · have hcalls : (dkgStart Ideal.box id Ideal.pair Ideal.dkgIds).part1Calls Ideal.dkgEvents =
        [((1 : Nat), .ok (Ideal.dkgRound1 1)), ((2 : Nat), .ok (Ideal.dkgRound1 2))] := rfl
    rw [hcalls]
    intro call hc
    rcases List.mem_cons.mp hc with rfl | hc
    · rfl
    · rw [List.mem_singleton.mp hc]
  · exact ⟨rfl, rfl, trivial⟩

end Sapphire
