import Sapphire.DkgSteps

/-!
# The transcript of a key generation

What part 1 gave each member determines the rest: part 2 of each sees the
round-1 packages of the others, part 3 also what their part 2 sent it. The
transcript says so without a transport; below it, what boxes carry.
-/

namespace Sapphire

open BTreeMap

variable {C : Ciphersuite} {D : DkgWire C}

/-- The members and the output of part 1 at each. -/
structure Transcript (C : Ciphersuite) where
  members : Finset C.Identifier
  round1 : C.Identifier → C.Round1Secret × C.Round1Package

namespace Transcript

variable (T : Transcript C)

def others (i : C.Identifier) : BTreeMap C.Identifier C.Round1Package :=
  tabulate (T.members.erase i) fun j => (T.round1 j).2

def Sends (i : C.Identifier) (secretR2 : C.Round2Secret) (sent : BTreeMap C.Identifier C.Round2Package) : Prop :=
  C.part2 (T.round1 i).1 (T.others i) = .ok (secretR2, sent)

def Receives (i : C.Identifier) (received : BTreeMap C.Identifier C.Round2Package) : Prop :=
  ∀ (j : C.Identifier) pkg, received[j]? = some pkg ↔
    j ∈ T.members ∧ j ≠ i ∧ ∃ secretR2 sent, T.Sends j secretR2 sent ∧ sent[i]? = some pkg

/-- What part 3 gives `i` on what it holds and receives. -/
def Derives (i : C.Identifier) (keyPkg : C.KeyPackage) (pkp : C.PublicKeyPackage) : Prop :=
  ∃ secretR2 sent received, T.Sends i secretR2 sent ∧ T.Receives i received ∧
    C.part3 secretR2 (T.others i) received = .ok (keyPkg, pkp)

variable {T}

theorem getElem?_others {i j : C.Identifier} {pkg : C.Round1Package} :
    (T.others i)[j]? = some pkg ↔ j ∈ T.members ∧ j ≠ i ∧ (T.round1 j).2 = pkg := by
  unfold others
  rw [getElem?_tabulate, Finset.mem_erase, and_comm (a := j ≠ i), and_assoc]

theorem Sends.unique {i : C.Identifier} {a b : C.Round2Secret} {sent sent' : BTreeMap C.Identifier C.Round2Package}
    (h : T.Sends i a sent) (h' : T.Sends i b sent') : a = b ∧ sent = sent' := by
  have heq := Except.ok.inj (h.symm.trans h')
  exact Prod.mk.inj heq

theorem Receives.unique {i : C.Identifier} {received received' : BTreeMap C.Identifier C.Round2Package}
    (h : T.Receives i received) (h' : T.Receives i received') : received = received' :=
  eq_of_getElem?_iff fun j pkg => (h j pkg).trans (h' j pkg).symm

theorem Derives.unique {i : C.Identifier} {k k' : C.KeyPackage} {p p' : C.PublicKeyPackage} (h : T.Derives i k p)
    (h' : T.Derives i k' p') : k = k' ∧ p = p' := by
  obtain ⟨s, sent, received, hs, hr, hp⟩ := h
  obtain ⟨s', sent', received', hs', hr', hp'⟩ := h'
  obtain ⟨rfl, _⟩ := hs.unique hs'
  cases hr.unique hr'
  exact Prod.mk.inj (Except.ok.inj (hp.symm.trans hp'))

end Transcript

/-! ## Boxes -/

/-- A box opens under the key it was sealed to, and the encoding of a round-2 package decodes to it. -/
structure WireLaws (D : DkgWire C) : Prop where
  opened : ∀ secret rng plaintext,
    D.openEnvelope secret (D.sealEnvelope rng (D.publicKey secret) plaintext).1 = .ok plaintext
  decoded : ∀ pkg, ∃ plaintext, D.toVec pkg = .ok plaintext ∧ D.fromSlice plaintext = .ok pkg

def SealedTo (D : DkgWire C) (sender : C.Identifier) (c : DkgCeremony C) (entry : C.Identifier × C.Round2Package)
    (tx : Tx C) : Prop :=
  ∃ pk plaintext rng, c.validators[entry.1]? = some pk ∧ D.toVec entry.2 = .ok plaintext ∧
    tx = .dkgRound2 sender entry.1 (D.sealEnvelope rng pk plaintext).1

def OpensTo (participant : DkgParticipant D) (boxed : Sealed) (pkg : C.Round2Package) : Prop :=
  ∃ plaintext, D.openEnvelope participant.encSecret boxed = .ok plaintext ∧ D.fromSlice plaintext = .ok pkg

theorem OpensTo.unique {participant : DkgParticipant D} {boxed : Sealed} {pkg pkg' : C.Round2Package}
    (h : OpensTo participant boxed pkg) (h' : OpensTo participant boxed pkg') : pkg = pkg' := by
  obtain ⟨plaintext, ho, hf⟩ := h
  obtain ⟨plaintext', ho', hf'⟩ := h'
  cases Except.ok.inj (ho.symm.trans ho')
  exact Except.ok.inj (hf.symm.trans hf')

namespace DkgCtx

theorem sealAll_sealed {sender : C.Identifier} {c : DkgCeremony C} : ∀ {pkgs : List (C.Identifier × C.Round2Package)}
    {rng : C.Rng} {out txs : List (Tx C)}, (sealAll D sender c rng out pkgs).1 = .ok txs →
      ∃ more, txs = out ++ more ∧ List.Forall₂ (SealedTo D sender c) pkgs more
  | [], _, out, txs, h => by
    cases h
    exact ⟨[], by simp, .nil⟩
  | (recipient, pkg) :: pkgs, rng, out, txs, h => by
    unfold sealAll at h
    cases hpk : c.validators[recipient]? with
    | none => rw [hpk] at h; cases h
    | some pk =>
      cases hv : D.toVec pkg with
      | error e => simp only [hpk, hv] at h; cases h
      | ok plaintext =>
        simp only [hpk, hv] at h
        obtain ⟨more, rfl, hmore⟩ := sealAll_sealed h
        refine ⟨.dkgRound2 sender recipient (D.sealEnvelope rng pk plaintext).1 :: more, by simp, .cons ?_ hmore⟩
        exact ⟨pk, plaintext, rng, hpk, hv, rfl⟩

theorem sealAll_total (hwire : WireLaws D) (sender : C.Identifier) {c : DkgCeremony C} :
    ∀ {pkgs : List (C.Identifier × C.Round2Package)} (rng : C.Rng) (out : List (Tx C)),
      (∀ entry ∈ pkgs, entry.1 ∈ c.validators) → ∃ txs, (sealAll D sender c rng out pkgs).1 = .ok txs
  | [], _, out, _ => ⟨out, rfl⟩
  | (recipient, pkg) :: pkgs, rng, out, h => by
    obtain ⟨pk, hpk⟩ := mem_iff.mp (h (recipient, pkg) (by simp))
    obtain ⟨plaintext, hv, _⟩ := hwire.decoded pkg
    unfold sealAll
    simp only [hpk, hv]
    exact sealAll_total hwire sender _ _ fun entry he => h entry (List.mem_cons_of_mem _ he)

theorem openAll_total {participant : DkgParticipant D} :
    ∀ {l : List ((C.Identifier ×ₗ C.Identifier) × Sealed)} (received : BTreeMap C.Identifier C.Round2Package),
      (∀ j boxed, (toLex (j, participant.identifier), boxed) ∈ l → ∃ pkg, OpensTo participant boxed pkg) →
      ∃ m, openAll participant received l = .ok m
  | [], received, _ => ⟨received, rfl⟩
  | (key, boxed) :: l, received, h => by
    have hrest : ∀ j boxed, (toLex (j, participant.identifier), boxed) ∈ l → ∃ pkg, OpensTo participant boxed pkg :=
      fun j boxed hm => h j boxed (List.mem_cons_of_mem _ hm)
    unfold openAll
    by_cases hto : (ofLex key).2 = participant.identifier
    · have hkey : key = toLex ((ofLex key).1, participant.identifier) := by rw [← hto]; rfl
      obtain ⟨pkg, plaintext, hopen, hslice⟩ := h (ofLex key).1 boxed (by rw [← hkey]; simp)
      simp only [hto, ne_eq, not_true, if_false, hopen, hslice]
      exact openAll_total _ hrest
    · simp only [hto, ne_eq, not_false_eq_true, if_true]
      exact openAll_total received hrest

theorem openAll_received {participant : DkgParticipant D} :
    ∀ {l : List ((C.Identifier ×ₗ C.Identifier) × Sealed)} {received m : BTreeMap C.Identifier C.Round2Package},
      (l.map Prod.fst).Nodup → openAll participant received l = .ok m → ∀ (j : C.Identifier) pkg, m[j]? = some pkg ↔
        (∃ boxed, (toLex (j, participant.identifier), boxed) ∈ l ∧ OpensTo participant boxed pkg) ∨
          toLex (j, participant.identifier) ∉ l.map Prod.fst ∧ received[j]? = some pkg
  | [], received, m, _, h, j, pkg => by
    cases h
    simp
  | (key, boxed) :: l, received, m, hd, h, j, pkg => by
    rw [List.map_cons, List.nodup_cons] at hd
    obtain ⟨hnew, hd⟩ := hd
    unfold openAll at h
    by_cases hto : (ofLex key).2 = participant.identifier
    · have hkey : key = toLex ((ofLex key).1, participant.identifier) := by rw [← hto]; rfl
      simp only [hto, ne_eq, not_true, if_false] at h
      cases hopen : D.openEnvelope participant.encSecret boxed with
      | error e => simp only [hopen] at h; cases h
      | ok plaintext =>
        simp only [hopen] at h
        cases hslice : D.fromSlice plaintext with
        | error e => simp only [hslice] at h; cases h
        | ok pkg₀ =>
          simp only [hslice] at h
          rw [openAll_received hd h, getElem?_insert']
          have hopens : OpensTo participant boxed pkg₀ := ⟨plaintext, hopen, hslice⟩
          by_cases hj : (ofLex key).1 = j
          · rw [hj] at hkey
            subst hkey
            have hnone : ∀ boxed', (toLex (j, participant.identifier), boxed') ∉ l := fun boxed' hm =>
              hnew (List.mem_map.mpr ⟨_, hm, rfl⟩)
            simp only [hj, if_true, List.mem_cons, List.map_cons, Prod.mk.injEq, true_and]
            constructor
            · rintro (⟨b, hb, _⟩ | ⟨_, hb⟩)
              · exact absurd hb (hnone b)
              · cases hb
                exact Or.inl ⟨boxed, Or.inl rfl, hopens⟩
            · rintro (⟨b, rfl | hb, ho⟩ | ⟨hb, _⟩)
              · exact Or.inr ⟨hnew, by rw [hopens.unique ho]⟩
              · exact absurd hb (hnone b)
              · exact absurd (Or.inl trivial) hb
          · have hne : toLex (j, participant.identifier) ≠ key := by
              intro he
              rw [hkey] at he
              exact hj (congrArg (fun k => (ofLex k).1) he).symm
            simp [hj, hne]
    · have hne : toLex (j, participant.identifier) ≠ key := by
        intro he
        rw [← he] at hto
        exact hto rfl
      simp only [hto, ne_eq, not_false_eq_true, if_true] at h
      rw [openAll_received hd h]
      simp [hne]

theorem openAll_round2 {participant : DkgParticipant D} {c : DkgCeremony C}
    {m : BTreeMap C.Identifier C.Round2Package} (h : openAll participant ∅ c.round2.toList = .ok m) (j : C.Identifier)
    (pkg : C.Round2Package) : m[j]? = some pkg ↔
      ∃ boxed, c.round2[toLex (j, participant.identifier)]? = some boxed ∧ OpensTo participant boxed pkg := by
  have hd : (c.round2.toList.map Prod.fst).Nodup := by
    rw [c.round2.map_fst_toList_eq_keys]; exact c.round2.nodup_keys
  rw [openAll_received hd h]
  simp [Std.ExtTreeMap.mem_toList_iff_getElem?_eq_some]

end DkgCtx

theorem DkgParticipant.getElem?_othersR1 {participant : DkgParticipant D} {c : DkgCeremony C} {j : C.Identifier}
    {pkg : C.Round1Package} :
    (participant.othersR1 c)[j]? = some pkg ↔ c.round1[j]? = some pkg ∧ j ≠ participant.identifier := by
  unfold othersR1
  rw [getElem?_ofList_filter]
  simp

end Sapphire
