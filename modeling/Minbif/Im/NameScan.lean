import Minbif.Im.AccountIds

/-! The loop of `getNewAccountName`, iterator by iterator. -/
namespace Minbif
namespace Accounts

variable (A : Accounts) (proto : Protocol) (butone : AccountRef)

/-- One turn of the loop, on what is left of the list and `i`; `none` is its end. -/
def scanTurn : List AccountRef × Nat → Option (List AccountRef × Nat)
  | ([], _) => none
  | (acc :: rest, i) =>
    if acc = butone ∨ (A.protocol acc).any (fun p => p.purpleId = proto.purpleId) = false then
      some (rest, i)
    else if A.id acc = numbered proto.getID i then
      -- `iter = NULL`, and the list from its head
      some (A.all, if i = 0 then 1 else s2t ((A.id acc).drop proto.getID.length) + 1)
    else some (rest, i)

/-- The name, if the loop ends within that many turns. -/
def scan : Nat → List AccountRef × Nat → Option Str
  | 0, _ => none
  | fuel + 1, s =>
    match A.scanTurn proto butone s with
    | none => some (numbered proto.getID s.2)
    | some s => scan fuel s

/-- Enough turns for a list: as many passes as it has accounts, and one more. -/
def scanBound : Nat := (A.all.length + 1) * (A.all.length + 1)

variable {A proto butone} {rest : List AccountRef} {acc : AccountRef} {i : Nat}

/-- A turn goes on in the list, or an account of it has the name. -/
theorem scanTurn_cons (hmem : acc ∈ A.all) :
    (A.scanTurn proto butone (acc :: rest, i) = some (rest, i) ∧
        (acc ≠ butone → (A.protocol acc).any (fun p => p.purpleId = proto.purpleId) = true →
          A.id acc ≠ numbered proto.getID i)) ∨
      (A.scanTurn proto butone (acc :: rest, i) = some (A.all, i + 1) ∧
        A.named proto butone (numbered proto.getID i) = true) := by
  rw [scanTurn]
  split
  · next hskip =>
    refine .inl ⟨rfl, fun hne hproto => ?_⟩
    rcases hskip with hskip | hskip
    · exact absurd hskip hne
    · rw [hskip] at hproto
      cases hproto
  · next hown =>
    rw [not_or, Bool.not_eq_false] at hown
    split
    · next hid =>
      right
      rw [hid, numbered_next]
      exact ⟨rfl, named_iff.mpr ⟨acc, hmem, hown.1, hown.2, hid⟩⟩
    · next hid => exact .inl ⟨rfl, fun _ _ => hid⟩

/-- The loop ends with the first name that is not taken, where the accounts that it has passed do not
have the one it looks for. -/
theorem scan_spec {fuel : Nat} (hrest : ∀ b ∈ rest, b ∈ A.all)
    (hpast : ∀ j < i, A.named proto butone (numbered proto.getID j) = true)
    (hpassed : ∀ b ∈ A.all, b ∈ rest ∨ (b ≠ butone →
      (A.protocol b).any (fun p => p.purpleId = proto.purpleId) = true →
        A.id b ≠ numbered proto.getID i))
    (hfuel : (A.all.length - i) * (A.all.length + 1) + rest.length + 1 ≤ fuel) :
    ∃ k, A.scan proto butone fuel (rest, i) = some (numbered proto.getID k) ∧
      A.named proto butone (numbered proto.getID k) = false ∧
      ∀ j < k, A.named proto butone (numbered proto.getID j) = true := by
  induction fuel generalizing rest i with
  | zero => omega
  | succ fuel ih =>
    cases rest with
    | nil =>
      refine ⟨i, rfl, ?_, hpast⟩
      by_contra hnamed
      rw [Bool.not_eq_false] at hnamed
      obtain ⟨b, hb, hne, hproto, hid⟩ := named_iff.mp hnamed
      exact (hpassed b hb).resolve_left List.not_mem_nil hne hproto hid
    | cons acc rest =>
      rw [List.forall_mem_cons] at hrest
      rw [List.length_cons] at hfuel
      have hcases : (A.scanTurn proto butone (acc :: rest, i) = some (rest, i) ∧ _) ∨ _ :=
        scanTurn_cons hrest.1
      rcases hcases with ⟨hturn, hother⟩ | ⟨hturn, hnamed⟩
      · rw [scan, hturn]
        refine ih hrest.2 hpast (fun b hb => ?_) (by omega)
        rcases hpassed b hb with hin | hpassed
        · rcases List.mem_cons.mp hin with rfl | hin
          · exact .inr hother
          · exact .inl hin
        · exact .inr hpassed
      · rw [scan, hturn]
        have hpast' : ∀ j < i + 1, A.named proto butone (numbered proto.getID j) = true := by
          intro j hj
          rcases Nat.lt_succ_iff_lt_or_eq.mp hj with hj | rfl
          · exact hpast j hj
          · exact hnamed
        -- every name that was taken is that of an account of its own
        have hle : i + 1 ≤ A.all.length := by
          have htaken : ∀ j < i + 1, numbered proto.getID j ∈ A.all.map A.id := by
            intro j hj
            obtain ⟨b, hb, -, -, hid⟩ := named_iff.mp (hpast' j hj)
            exact hid ▸ List.mem_map_of_mem hb
          simpa using numbered_le htaken
        refine ih (fun b hb => hb) hpast' (fun b hb => .inl hb) ?_
        obtain ⟨q, hq⟩ := Nat.exists_eq_add_of_le hle
        have hq' : A.all.length - (i + 1) = q := by omega
        have hq'' : A.all.length - i = q + 1 := by omega
        rw [hq'', Nat.succ_mul] at hfuel
        rw [hq']
        omega

/-- From the head of the list the loop ends with the name that is offered. -/
theorem scan_offered (A : Accounts) (proto : Protocol) (butone : AccountRef) {fuel : Nat}
    (hfuel : A.scanBound ≤ fuel) : ∃ name,
      A.scan proto butone fuel (A.all, 0) = some name ∧ A.Offered proto butone name := by
  have hbound : (A.all.length - 0) * (A.all.length + 1) + A.all.length + 1 ≤ fuel := by
    rw [scanBound, Nat.succ_mul] at hfuel
    rw [Nat.sub_zero]
    omega
  obtain ⟨k, hscan, hfree, hpast⟩ := scan_spec (fun b hb => hb)
    (fun j hj => absurd hj (Nat.not_lt_zero j)) (fun b hb => .inl hb) hbound
  exact ⟨_, hscan, k, rfl, hfree, hpast⟩

/-- The loop ends, with the first name that no other account of the protocol has. -/
theorem scan_least (A : Accounts) (proto : Protocol) (butone : AccountRef) :
    ∃ i, (∀ fuel, A.scanBound ≤ fuel →
        A.scan proto butone fuel (A.all, 0) = some (numbered proto.getID i)) ∧
      (∀ a ∈ A.all, a ≠ butone → (A.protocol a).any (fun p => p.purpleId = proto.purpleId) = true →
        A.id a ≠ numbered proto.getID i) ∧
      ∀ j < i, ∃ a ∈ A.all, a ≠ butone ∧
        (A.protocol a).any (fun p => p.purpleId = proto.purpleId) = true ∧
        A.id a = numbered proto.getID j := by
  obtain ⟨name, -, hoffered⟩ := A.scan_offered proto butone le_rfl
  have hfirst := hoffered
  obtain ⟨i, hname, hfree, hpast⟩ := hfirst
  refine ⟨i, fun fuel hfuel => ?_, fun a ha hne hproto hid => ?_, fun j hj => ?_⟩
  · obtain ⟨name', hscan, hoffered'⟩ := A.scan_offered proto butone hfuel
    rw [hscan, hoffered'.unique hoffered, hname]
  · rw [hname, named_iff.mpr ⟨a, ha, hne, hproto, hid⟩] at hfree
    cases hfree
  · exact named_iff.mp (hpast j hj)

/-- It is the name that accounts are given. -/
theorem scan_eq (A : Accounts) (proto : Protocol) (butone : AccountRef) :
    A.scan proto butone A.scanBound (A.all, 0) = some (A.getNewAccountName proto butone) := by
  obtain ⟨name, hscan, hoffered⟩ := A.scan_offered proto butone le_rfl
  rw [hscan, hoffered.unique (A.offered proto butone)]

end Accounts
end Minbif
