import Espers.Net.Address

/-!
# Banned addresses

An address is banned by way of its text: `Ban` writes it, appends the length of a prefix, and reads
the subnet back.  `IsBanned` asks the subnets that are banned for a match.

* `ban_lookup`, `unban_lookup`, `sweepBanned_lookup` : what a call does to the entry of a subnet.
* `BansHold E h` : what is promised after the calls `h`.
* `bans_hold` : **it holds after all calls that name no I2P address**, and these are the addresses
  whose text is not read back.
-/

namespace Espers

open List AList Nat

/-! ### The source -/

/-- `BanReason`. -/
inductive BanReason where
  | unknown
  | nodeMisbehaving
  | manuallyAdded
  deriving DecidableEq

/-- `CBanEntry`. -/
structure CBanEntry where
  nCreateTime : ℤ
  nBanUntil : ℤ
  banReason : BanReason

/-- An entry that was set to null. -/
def CBanEntry.null : CBanEntry := ⟨0, 0, .unknown⟩

/-- What two subnets are compared by. -/
abbrev SubNetKey := CNetAddr × List UInt8

/-- `setBanned`, with the subnets that are stored as keys. -/
abbrev BanMap := AList fun _ : SubNetKey => CSubNet × CBanEntry

/-- The system's part, and `GetArg("-bantime", …)`. -/
structure BanEnv where
  resolver : Resolver
  bantime : ℤ

namespace CSubNet

/-- What `operator<` looks at. -/
def key (subNet : CSubNet) : SubNetKey := (subNet.network, subNet.netmask)

theorem key_injOn {m n : CSubNet} (hm : m.valid = true) (hn : n.valid = true) (h : m.key = n.key) :
    m = n := by
  obtain ⟨_, _, _⟩ := m
  obtain ⟨_, _, _⟩ := n
  cases h
  cases hm
  cases hn
  rfl

end CSubNet

/-- `IsBanned(ip)`. -/
def isBanned (setBanned : BanMap) (now : ℤ) (ip : CNetAddr) : Bool :=
  setBanned.entries.any fun it => it.2.1.matchAddr ip && decide (now < it.2.2.nBanUntil)

/-- When a ban ends. -/
def banUntil (E : BanEnv) (now bantimeoffset : ℤ) (sinceUnixEpoch : Bool) : ℤ :=
  if bantimeoffset ≤ 0 then now + E.bantime
  else (if sinceUnixEpoch then 0 else now) + bantimeoffset

/-- `Ban(subNet, …)`; `operator[]` makes an entry if there is none. -/
def ban (E : BanEnv) (now : ℤ) (subNet : CSubNet) (banReason : BanReason) (bantimeoffset : ℤ)
    (sinceUnixEpoch : Bool) (setBanned : BanMap) : BanMap :=
  let banEntry : CBanEntry := ⟨now, banUntil E now bantimeoffset sinceUnixEpoch, banReason⟩
  let (stored, entry) := (setBanned.lookup subNet.key).getD (subNet, .null)
  if entry.nBanUntil < banEntry.nBanUntil then setBanned.insert subNet.key (stored, banEntry)
  else setBanned.insert subNet.key (stored, entry)

/-- `Unban(subNet)`. -/
def unban (subNet : CSubNet) (setBanned : BanMap) : BanMap := setBanned.erase subNet.key

/-- `SweepBanned`. -/
def sweepBanned (now : ℤ) (setBanned : BanMap) : BanMap where
  entries := setBanned.entries.filter fun it => !decide (now > it.2.2.nBanUntil)
  nodupKeys := setBanned.nodupKeys.sublist filter_sublist

/-! ### Calls -/

/-- What is banned: an address, or a valid subnet. -/
inductive BanTarget where
  | addr (a : CNetAddr)
  | subnet (subNet : CSubNet) (valid : subNet.valid = true)

namespace BanTarget

/-- The subnet of `Ban` and `Unban`. -/
def subNet (E : BanEnv) : BanTarget → CSubNet
  | addr a => .ofAddr E.resolver a
  | subnet subNet _ => subNet

/-- The target is the address alone. -/
def Names (target : BanTarget) (a : CNetAddr) : Prop :=
  match target with
  | addr b => b = a
  | subnet subNet _ => subNet = .single a

/-- The target holds the address. -/
def Covers (target : BanTarget) (a : CNetAddr) : Prop :=
  match target with
  | addr b => b = a
  | subnet subNet _ => subNet.matchAddr a = true

/-- The target is not an I2P address. -/
def NoI2P (target : BanTarget) : Prop :=
  match target with
  | addr b => NetAddr.isI2P b = false
  | subnet _ _ => True

end BanTarget

/-- A call that changes `setBanned`. -/
inductive BanCall where
  | ban (target : BanTarget) (banReason : BanReason) (bantimeoffset : ℤ) (sinceUnixEpoch : Bool)
  | unban (target : BanTarget)
  | clearBanned
  | sweepBanned

namespace BanCall

/-- A call at the time `now`. -/
def apply (E : BanEnv) (now : ℤ) : BanCall → BanMap → BanMap
  | ban target banReason bantimeoffset sinceUnixEpoch =>
    Espers.ban E now (target.subNet E) banReason bantimeoffset sinceUnixEpoch
  | unban target => Espers.unban (target.subNet E)
  | clearBanned => fun _ => ∅
  | sweepBanned => Espers.sweepBanned now

/-- The call names no I2P address. -/
def NoI2P : BanCall → Prop
  | ban target _ _ _ => target.NoI2P
  | unban target => target.NoI2P
  | _ => True

/-- The call takes the ban of an address back. -/
def Lifts (call : BanCall) (a : CNetAddr) : Prop :=
  match call with
  | unban target => target.Names a
  | clearBanned => True
  | _ => False

end BanCall

/-- The calls of a history, each at its time, from an empty `setBanned` on. -/
def runBans (E : BanEnv) (h : List (ℤ × BanCall)) : BanMap :=
  h.foldl (fun setBanned call => call.2.apply E call.1 setBanned) ∅

/-- What is promised after the calls of a history. -/
structure BansHold (E : BanEnv) (h : List (ℤ × BanCall)) : Prop where
  /-- A ban that was not taken back holds until it ends. -/
  kept : ∀ (pre post : List (ℤ × BanCall)) (now : ℤ) (a : CNetAddr) (banReason : BanReason)
    (bantimeoffset : ℤ) (sinceUnixEpoch : Bool) (t : ℤ),
    h = pre ++ (now, .ban (.addr a) banReason bantimeoffset sinceUnixEpoch) :: post →
    NetAddr.isValid a = true → (∀ call ∈ post, ¬ call.2.Lifts a) → (∀ call ∈ h, call.1 ≤ t) →
    t < banUntil E now bantimeoffset sinceUnixEpoch → isBanned (runBans E h) t a = true
  /-- Another ban shortens none. -/
  longer : ∀ (now : ℤ) (target : BanTarget) (banReason : BanReason) (bantimeoffset : ℤ)
    (sinceUnixEpoch : Bool) (a : CNetAddr) (t : ℤ), isBanned (runBans E h) t a = true →
    isBanned ((BanCall.ban target banReason bantimeoffset sinceUnixEpoch).apply E now (runBans E h))
    t a = true
  /-- An address is banned only by a ban of it. -/
  others : ∀ (a : CNetAddr) (t : ℤ), 0 ≤ t → isBanned (runBans E h) t a = true →
    ∃ call ∈ h, ∃ target banReason bantimeoffset sinceUnixEpoch,
      call.2 = .ban target banReason bantimeoffset sinceUnixEpoch ∧ target.Covers a ∧
      t < banUntil E call.1 bantimeoffset sinceUnixEpoch

/-! ### What a call does to an entry -/

variable {subNet : CSubNet}

theorem ban_lookup {E : BanEnv} {now : ℤ} {banReason : BanReason}
    {bantimeoffset : ℤ} {sinceUnixEpoch : Bool} (m : BanMap) (k : SubNetKey) :
    (ban E now subNet banReason bantimeoffset sinceUnixEpoch m).lookup k = if k = subNet.key then
        some (((m.lookup k).getD (subNet, .null)).1,
          if ((m.lookup k).getD (subNet, .null)).2.nBanUntil < banUntil E now bantimeoffset
            sinceUnixEpoch then
            ⟨now, banUntil E now bantimeoffset sinceUnixEpoch, banReason⟩
          else ((m.lookup k).getD (subNet, .null)).2)
      else m.lookup k := by
  unfold ban
  dsimp only
  by_cases hk : k = subNet.key
  · subst hk
    rw [if_pos rfl]
    split_ifs <;> rw [lookup_insert]
  · rw [if_neg hk]
    split_ifs <;> rw [lookup_insert_ne hk]

theorem unban_lookup (m : BanMap) (k : SubNetKey) :
    (unban subNet m).lookup k = if k = subNet.key then none else m.lookup k := by
  by_cases hk : k = subNet.key
  · rw [if_pos hk, hk, unban, lookup_erase]
  · rw [if_neg hk, unban, lookup_erase_ne hk]

theorem sweepBanned_lookup {now : ℤ} {m : BanMap} {k : SubNetKey} {v : CSubNet × CBanEntry} :
    v ∈ (sweepBanned now m).lookup k ↔ v ∈ m.lookup k ∧ now ≤ v.2.nBanUntil := by
  rw [mem_lookup_iff, mem_lookup_iff, sweepBanned, mem_filter]
  simp

theorem isBanned_iff {m : BanMap} {t : ℤ} {a : CNetAddr} :
    isBanned m t a = true ↔ ∃ k v, v ∈ m.lookup k ∧ v.1.matchAddr a = true ∧ t < v.2.nBanUntil := by
  simp only [isBanned, any_eq_true, Bool.and_eq_true, decide_eq_true_eq, mem_lookup_iff]
  constructor
  · rintro ⟨⟨k, v⟩, hmem, hmatch, ht⟩
    exact ⟨k, v, hmem, hmatch, ht⟩
  · rintro ⟨k, v, hmem, hmatch, ht⟩
    exact ⟨⟨k, v⟩, hmem, hmatch, ht⟩

theorem isBanned_ban {E : BanEnv} {now : ℤ} {banReason : BanReason} {bantimeoffset : ℤ}
    {sinceUnixEpoch : Bool} {m : BanMap} {t : ℤ} {a : CNetAddr} (h : isBanned m t a = true) :
    isBanned (ban E now subNet banReason bantimeoffset sinceUnixEpoch m) t a = true := by
  obtain ⟨k, v, hv, hmatch, ht⟩ := isBanned_iff.1 h
  refine isBanned_iff.2 ⟨k, ?_⟩
  rw [ban_lookup]
  by_cases hk : k = subNet.key
  · rw [if_pos hk, hv]
    refine ⟨_, rfl, hmatch, ?_⟩
    split_ifs with hlater
    · exact ht.trans hlater
    · exact ht
  · rw [if_neg hk]
    exact ⟨v, hv, hmatch, ht⟩

/-! ### Histories -/

section

variable {E : BanEnv} (hR : E.resolver.Numeric)

include hR

variable {target : BanTarget}

theorem BanTarget.valid_subNet (h : target.NoI2P) : (target.subNet E).valid = true := by
  cases target with
  | addr b =>
    rw [BanTarget.subNet, CSubNet.ofAddr_eq hR h]
    rfl
  | subnet subNet valid => exact valid

variable {a : CNetAddr}

theorem BanTarget.names_of_key (h : target.NoI2P)
    (hkey : (target.subNet E).key = (CSubNet.single a).key) : target.Names a := by
  have hsub : target.subNet E = CSubNet.single a := CSubNet.key_injOn (valid_subNet hR h) rfl hkey
  cases target with
  | addr b =>
    rw [BanTarget.subNet, CSubNet.ofAddr_eq hR h] at hsub
    exact congrArg CSubNet.network hsub
  | subnet subNet valid => exact hsub

theorem BanTarget.covers_of_matchAddr (h : target.NoI2P)
    (hmatch : (target.subNet E).matchAddr a = true) : target.Covers a := by
  cases target with
  | addr b =>
    rw [BanTarget.subNet, CSubNet.ofAddr_eq hR h] at hmatch
    exact (CSubNet.matchAddr_single.1 hmatch).2.symm
  | subnet subNet valid => exact hmatch

omit hR in
/-- Where the entries of `setBanned` come from: each is stored under its valid subnet, and one that
can be in effect was set by a ban. -/
structure BanMap.From (E : BanEnv) (h : List (ℤ × BanCall)) (m : BanMap) : Prop where
  valid : ∀ k v, v ∈ m.lookup k → v.1.valid = true ∧ v.1.key = k
  source : ∀ k v, v ∈ m.lookup k → 0 < v.2.nBanUntil →
    ∃ call ∈ h, ∃ target banReason bantimeoffset sinceUnixEpoch,
      call.2 = BanCall.ban target banReason bantimeoffset sinceUnixEpoch ∧ target.NoI2P ∧
      (target.subNet E).key = k ∧ v.2.nBanUntil = banUntil E call.1 bantimeoffset sinceUnixEpoch

variable {h : List (ℤ × BanCall)}

omit hR in
theorem BanMap.From.of_subset {m m' : BanMap} (hm : m.From E h)
    (call : ℤ × BanCall) (hsub : ∀ k v, v ∈ m'.lookup k → v ∈ m.lookup k) :
    m'.From E (h ++ [call]) where
  valid k v hv := hm.valid k v (hsub k v hv)
  source k v hv hpos := by
    obtain ⟨call', hmem, hcall'⟩ := hm.source k v (hsub k v hv) hpos
    exact ⟨call', mem_append_left _ hmem, hcall'⟩

/-- One call, with the calls before it. -/
theorem BanMap.From.apply {m : BanMap} (hm : m.From E h)
    {call : ℤ × BanCall} (hcall : call.2.NoI2P) : BanMap.From E (h ++ [call])
    (call.2.apply E call.1 m) := by
  obtain ⟨now, call⟩ := call
  cases call with
  | ban target banReason bantimeoffset sinceUnixEpoch =>
    have hvalid := BanTarget.valid_subNet hR hcall
    have hentry : ∀ k v,
      v ∈ ((BanCall.ban target banReason bantimeoffset sinceUnixEpoch).apply E now m).lookup k →
        (v ∈ m.lookup k) ∨ (k = (target.subNet E).key ∧
          (v.1 = target.subNet E ∨ ∃ e, (v.1, e) ∈ m.lookup k) ∧
          (v.2.nBanUntil = banUntil E now bantimeoffset sinceUnixEpoch ∨ v.2 = .null)) := by
      intro k v hv
      rw [BanCall.apply, ban_lookup] at hv
      by_cases hk : k = (target.subNet E).key
      · rw [if_pos hk] at hv
        cases hold : m.lookup k with
        | none =>
          rw [hold] at hv
          obtain rfl := Option.some.inj hv
          refine Or.inr ⟨hk, Or.inl rfl, ?_⟩
          split_ifs
          · exact Or.inl rfl
          · exact Or.inr rfl
        | some old =>
          rw [hold] at hv
          obtain rfl := Option.some.inj hv
          split_ifs
          · exact Or.inr ⟨hk, Or.inr ⟨old.2, rfl⟩, Or.inl rfl⟩
          · exact Or.inl rfl
      · rw [if_neg hk] at hv
        exact Or.inl hv
    constructor
    · intro k v hv
      obtain hv | ⟨hk, hstored, -⟩ := hentry k v hv
      · exact hm.valid k v hv
      · obtain hstored | ⟨e, he⟩ := hstored
        · rw [hstored, hk]
          exact ⟨hvalid, rfl⟩
        · exact hm.valid k (v.1, e) he
    · intro k v hv hpos
      obtain hv | ⟨hk, -, huntil⟩ := hentry k v hv
      · obtain ⟨call', hmem, hcall'⟩ := hm.source k v hv hpos
        exact ⟨call', mem_append_left _ hmem, hcall'⟩
      · obtain huntil | hnull := huntil
        · exact ⟨_, mem_append_right h (mem_singleton.2 rfl), target, banReason,
            bantimeoffset, sinceUnixEpoch, rfl, hcall, hk.symm, huntil⟩
        · rw [hnull] at hpos
          exact absurd hpos (lt_irrefl 0)
  | unban target =>
    refine hm.of_subset _ fun k v hv => ?_
    rw [BanCall.apply, unban_lookup] at hv
    split_ifs at hv
    · cases hv
    · exact hv
  | clearBanned => exact hm.of_subset _ fun k v hv => absurd hv nofun
  | sweepBanned => exact hm.of_subset _ fun k v hv => (sweepBanned_lookup.1 hv).1

omit hR in
theorem runBans_concat (h : List (ℤ × BanCall)) (call : ℤ × BanCall) :
    runBans E (h ++ [call]) = call.2.apply E call.1 (runBans E h) := by
  rw [runBans, foldl_append]
  rfl

theorem runBans_from (hcalls : ∀ call ∈ h, call.2.NoI2P) : (runBans E h).From E h := by
  induction h using List.reverseRecOn with
  | nil => exact ⟨fun k v hv => absurd hv nofun, fun k v hv => absurd hv nofun⟩
  | append_singleton h call ih =>
    rw [runBans_concat]
    exact (ih fun call' hmem => hcalls call' (mem_append_left _ hmem)).apply hR
      (hcalls call (by simp))

omit hR in
/-- The entry of an address lasts until `u`. -/
def BanMap.Lasts (m : BanMap) (a : CNetAddr) (u : ℤ) : Prop :=
  ∃ v, v ∈ m.lookup (CSubNet.single a).key ∧ u ≤ v.2.nBanUntil

theorem BanMap.lasts_ban {now : ℤ} (ha : NetAddr.isI2P a = false)
    (banReason : BanReason) (bantimeoffset : ℤ) (sinceUnixEpoch : Bool) (m : BanMap) :
    BanMap.Lasts (ban E now (.ofAddr E.resolver a) banReason bantimeoffset sinceUnixEpoch m) a
      (banUntil E now bantimeoffset sinceUnixEpoch) := by
  rw [CSubNet.ofAddr_eq hR ha, Lasts, ban_lookup, if_pos rfl]
  refine ⟨_, rfl, ?_⟩
  split_ifs with hlater
  · exact le_rfl
  · exact not_lt.1 hlater

/-- A call that does not take the ban back, before it ends, keeps the entry. -/
theorem BanMap.Lasts.apply {m : BanMap} {u t : ℤ} (h : m.Lasts a u) (htu : t < u)
    {call : ℤ × BanCall} (hcall : call.2.NoI2P) (hlifts : ¬ call.2.Lifts a) (ht : call.1 ≤ t) :
    BanMap.Lasts (call.2.apply E call.1 m) a u := by
  obtain ⟨now, call⟩ := call
  obtain ⟨v, hv, hu⟩ := h
  cases call with
  | ban target banReason bantimeoffset sinceUnixEpoch =>
    rw [BanCall.apply, Lasts, ban_lookup, hv]
    split_ifs with hk hlater
    · exact ⟨_, rfl, hu.trans hlater.le⟩
    · exact ⟨_, rfl, hu⟩
    · exact ⟨v, rfl, hu⟩
  | unban target =>
    have hk : (CSubNet.single a).key ≠ (target.subNet E).key := fun hkey =>
      hlifts (BanTarget.names_of_key hR hcall hkey.symm)
    rw [BanCall.apply, Lasts, unban_lookup, if_neg hk]
    exact ⟨v, hv, hu⟩
  | clearBanned => exact absurd trivial hlifts
  | sweepBanned =>
    have hnow : now ≤ v.2.nBanUntil := ht.trans (htu.le.trans hu)
    exact ⟨v, sweepBanned_lookup.2 ⟨hv, hnow⟩, hu⟩

theorem BanMap.Lasts.run {pre post : List (ℤ × BanCall)} {u t : ℤ}
    (h : (runBans E pre).Lasts a u) (htu : t < u) (hcalls : ∀ call ∈ post, call.2.NoI2P)
    (hlifts : ∀ call ∈ post, ¬ call.2.Lifts a) (ht : ∀ call ∈ post, call.1 ≤ t) :
    (runBans E (pre ++ post)).Lasts a u := by
  induction post using List.reverseRecOn with
  | nil => rwa [append_nil]
  | append_singleton post call ih =>
    have hlast : call ∈ post ++ [call] := by simp
    have hfront : ∀ call' ∈ post, call' ∈ post ++ [call] :=
      fun _ hmem => mem_append_left _ hmem
    rw [← append_assoc, runBans_concat]
    exact (ih (fun c hc => hcalls c (hfront c hc)) (fun c hc => hlifts c (hfront c hc))
      fun c hc => ht c (hfront c hc)).apply hR htu (hcalls call hlast) (hlifts call hlast)
      (ht call hlast)

/-- What is promised holds after calls that name no I2P address. -/
theorem bansHold_of_noI2P (hcalls : ∀ call ∈ h, call.2.NoI2P) : BansHold E h where
  kept pre post now a banReason bantimeoffset sinceUnixEpoch t hh hvalid hlifts ht htu := by
    subst hh
    have ha : NetAddr.isI2P a = false :=
      hcalls (now, .ban (.addr a) banReason bantimeoffset sinceUnixEpoch) (by simp)
    have hban : (runBans E
      (pre ++ [(now, .ban (.addr a) banReason bantimeoffset sinceUnixEpoch)])).Lasts a
        (banUntil E now bantimeoffset sinceUnixEpoch) := by
      rw [runBans_concat]
      exact BanMap.lasts_ban hR ha banReason bantimeoffset sinceUnixEpoch (runBans E pre)
    have hpost : ∀ call ∈ post, call ∈
        pre ++ (now, .ban (.addr a) banReason bantimeoffset sinceUnixEpoch) :: post :=
        fun call hmem => by
      simp [hmem]
    obtain ⟨v, hv, hu⟩ := hban.run hR htu (fun call hmem => hcalls call (hpost call hmem)) hlifts
      fun call hmem => ht call (hpost call hmem)
    rw [append_assoc, singleton_append] at hv
    obtain ⟨hvalid', hkey⟩ := (runBans_from hR hcalls).valid _ _ hv
    have hstored : v.1 = CSubNet.single a := CSubNet.key_injOn hvalid' rfl hkey
    refine isBanned_iff.2 ⟨_, v, hv, ?_, htu.trans_le hu⟩
    rw [hstored]
    exact CSubNet.matchAddr_single.2 ⟨hvalid, rfl⟩
  longer now target banReason bantimeoffset sinceUnixEpoch a t hbanned := isBanned_ban hbanned
  others a t hpos hbanned := by
    obtain ⟨k, v, hv, hmatch, ht⟩ := isBanned_iff.1 hbanned
    have hfrom := runBans_from hR hcalls
    obtain ⟨hvalid, hkey⟩ := hfrom.valid k v hv
    obtain ⟨call, hmem, target, banReason, bantimeoffset, sinceUnixEpoch, hcall, hno, hk, huntil⟩ :=
      hfrom.source k v hv (hpos.trans_lt ht)
    have hstored : v.1 = target.subNet E :=
      CSubNet.key_injOn hvalid (BanTarget.valid_subNet hR hno) (hkey.trans hk.symm)
    rw [hstored] at hmatch
    rw [huntil] at ht
    exact ⟨call, hmem, target, banReason, bantimeoffset, sinceUnixEpoch, hcall,
      BanTarget.covers_of_matchAddr hR hno hmatch, ht⟩

end

/-- **An address is read back from its text exactly if it is not an I2P address, and after calls
that name no I2P address bans hold, for the addresses that were banned and for no others**. -/
theorem bans_hold (E : BanEnv) (hR : E.resolver.Numeric) :
    (∀ a, lookupHost E.resolver (toStringIP E.resolver a) = some a ↔ NetAddr.isI2P a = false) ∧
      ∀ h : List (ℤ × BanCall), (∀ call ∈ h, call.2.NoI2P) → BansHold E h :=
  ⟨lookupHost_toString_iff hR, fun _ hcalls => bansHold_of_noI2P hR hcalls⟩

/-! ### Numeric forms -/

namespace NumericForm

/-- Two hexadecimal digits. -/
def byteHex (b : UInt8) : List Char := [Nat.digitChar (b.toNat / 16), Nat.digitChar (b.toNat % 16)]

/-- Groups of two bytes, with colons between them. -/
def hexGroups : List UInt8 → List Char
  | b :: c :: d :: rest => byteHex b ++ (byteHex c ++ ':' :: hexGroups (d :: rest))
  | rest => rest.flatMap byteHex

/-- The value of a hexadecimal digit. -/
def hexValue (c : Char) : ℕ := if c.isDigit then c.toNat - 48 else c.toNat - 87

/-- The bytes that two digits each stand for. -/
def hexBytes : List Char → List UInt8
  | c :: d :: rest => UInt8.ofNat (16 * hexValue c + hexValue d) :: hexBytes rest
  | _ => []

/-- The part of the system, for numeric forms of IPv4 addresses and of IPv6 addresses without
zeros. -/
def resolver : Resolver where
  getnameinfo
    | .inet sinAddr => some (formatIPv4 (sinAddr.map UInt8.toNat))
    | .inet6 sin6Addr => some (hexGroups sin6Addr)
  getaddrinfo text :=
    if ':' ∈ text then some [.inet6 (hexBytes (text.filter (· ≠ ':')))]
    else some [.inet ((text.splitOn '.').map fun word => UInt8.ofNat (Nat.ofDigitChars 10 word 0))]

theorem digitChar_spec : ∀ n < 16, hexValue (Nat.digitChar n) = n ∧ Nat.digitChar n ≠ ':' ∧
    numericChar (Nat.digitChar n) = true := by decide

theorem nibbles_lt (b : UInt8) : b.toNat / 16 < 16 ∧ b.toNat % 16 < 16 := by
  have hb := b.toNat_lt
  omega

theorem hexBytes_flatMap (b : List UInt8) : hexBytes (b.flatMap byteHex) = b := by
  induction b with
  | nil => rfl
  | cons c rest ih =>
    obtain ⟨hhigh, hlow⟩ := nibbles_lt c
    have hc : 16 * (c.toNat / 16) + c.toNat % 16 = c.toNat := div_add_mod c.toNat 16
    rw [flatMap_cons, byteHex, cons_append, singleton_append, hexBytes, ih,
      (digitChar_spec _ hhigh).1, (digitChar_spec _ hlow).1, hc, UInt8.ofNat_toNat]

theorem filter_byteHex (b : UInt8) (rest : List Char) :
    (byteHex b ++ rest).filter (· ≠ ':') = byteHex b ++ rest.filter (· ≠ ':') := by
  obtain ⟨hhigh, hlow⟩ := nibbles_lt b
  simp [byteHex]

theorem filter_hexGroups (b : List UInt8) : (hexGroups b).filter (· ≠ ':') = b.flatMap byteHex := by
  induction b using hexGroups.induct with
  | case1 b c d rest ih =>
    rw [hexGroups, filter_byteHex, filter_byteHex, filter_cons_of_neg (by simp), ih]
    rfl
  | case2 rest hrest =>
    match rest, hrest with
    | [], _ => rfl
    | [b], _ => exact (filter_byteHex b [])
    | [b, c], _ =>
      have hc := filter_byteHex c []
      exact (filter_byteHex b _).trans (congrArg (byteHex b ++ ·) (by simpa using hc))
    | b :: c :: d :: rest, hrest => exact (hrest b c d rest rfl).elim

theorem numericChar_hexGroups (b : List UInt8) : ∀ c ∈ hexGroups b, numericChar c = true := by
  have hbyte : ∀ (d : UInt8), ∀ c ∈ byteHex d, numericChar c = true := by
    intro d c hc
    obtain ⟨hhigh, hlow⟩ := nibbles_lt d
    simp only [byteHex, mem_cons, not_mem_nil, or_false] at hc
    obtain rfl | rfl := hc
    · exact (digitChar_spec _ hhigh).2.2
    · exact (digitChar_spec _ hlow).2.2
  induction b using hexGroups.induct with
  | case1 b c d rest ih =>
    intro e he
    rw [hexGroups, mem_append, mem_append, mem_cons] at he
    obtain he | he | rfl | he := he
    · exact hbyte b e he
    · exact hbyte c e he
    · decide
    · exact ih e he
  | case2 rest hrest =>
    intro e he
    rw [hexGroups] at he
    · obtain ⟨d, -, hd⟩ := mem_flatMap.1 he
      exact hbyte d e hd
    · exact hrest

theorem isDigit_of_mem {n : ℕ} {c : Char} (h : c ∈ Nat.toDigits 10 n) : c.isDigit = true :=
  isDigit_of_mem_toDigits (by decide) le_rfl h

theorem formatIPv4_cons_cons (n m : ℕ) (ns : List ℕ) :
    formatIPv4 (n :: m :: ns) = Nat.toDigits 10 n ++ '.' :: formatIPv4 (m :: ns) := by
  simp [formatIPv4]

theorem formatIPv4_singleton (n : ℕ) : formatIPv4 [n] = Nat.toDigits 10 n := by
  simp [formatIPv4]

theorem formatIPv4_ne_nil {ns : List ℕ} (h : ns ≠ []) : formatIPv4 ns ≠ [] := by
  match ns, h with
  | [n], _ => rw [formatIPv4_singleton]; exact toDigits_ne_nil
  | n :: m :: ns, _ => rw [formatIPv4_cons_cons]; simp

theorem numericChar_formatIPv4 : ∀ (ns : List ℕ), ∀ c ∈ formatIPv4 ns, numericChar c =
    true ∧ c ≠ ':'
  | [], _, hc => absurd hc not_mem_nil
  | [n], c, hc => by
    rw [formatIPv4_singleton] at hc
    have hdigit := isDigit_of_mem hc
    exact ⟨by simp [numericChar, hdigit], fun heq => absurd (heq ▸ hdigit) (by decide)⟩
  | n :: m :: ns, c, hc => by
    rw [formatIPv4_cons_cons, mem_append, mem_cons] at hc
    obtain hc | rfl | hc := hc
    · have hdigit := isDigit_of_mem hc
      exact ⟨by simp [numericChar, hdigit], fun heq => absurd (heq ▸ hdigit) (by decide)⟩
    · exact ⟨by decide, by decide⟩
    · exact numericChar_formatIPv4 (m :: ns) c hc

theorem splitOn_formatIPv4 {ns : List ℕ} (h : ns ≠ []) :
    (formatIPv4 ns).splitOn '.' = ns.map (Nat.toDigits 10) := by
  refine splitOn_intercalate '.' (fun word hword hdot => ?_) (by simpa using h)
  obtain ⟨n, -, rfl⟩ := mem_map.1 hword
  exact absurd (isDigit_of_mem hdot) (by decide)

/-- Numeric forms are read back. -/
theorem numeric : resolver.Numeric where
  inverse sa hok := by
    cases sa with
    | inet b =>
      have hne : b.map UInt8.toNat ≠ [] := by
        intro hnil
        rw [SockAddr.Ok, map_eq_nil_iff.1 hnil] at hok
        cases hok
      have hsplit := splitOn_formatIPv4 hne
      refine ⟨_, rfl, ?_, formatIPv4_ne_nil hne, fun c hc => (numericChar_formatIPv4 _ c hc).1⟩
      have hcolon : ':' ∉ formatIPv4 (b.map UInt8.toNat) := fun hmem =>
        (numericChar_formatIPv4 _ _ hmem).2 rfl
      simp only [resolver]
      rw [if_neg hcolon, hsplit, map_map, map_map]
      simp [Function.comp_def]
    | inet6 b =>
      rcases b with _ | ⟨c, _ | ⟨d, _ | ⟨e, rest⟩⟩⟩
      · cases hok
      · cases hok
      · cases hok
      · refine ⟨_, rfl, ?_, by simp [hexGroups, byteHex], numericChar_hexGroups _⟩
        have hcolon : ':' ∈ hexGroups (c :: d :: e :: rest) := by simp [hexGroups]
        simp only [resolver]
        rw [if_pos hcolon, filter_hexGroups, hexBytes_flatMap]

end NumericForm

/-- A system that reads numeric forms, and bans for a day. -/
def dayEnv : BanEnv := ⟨NumericForm.resolver, 60 * 60 * 24⟩

/-- `93.184.216.34`. -/
def peerIPv4 : CNetAddr := ofIpBytes (pchIPv4 ++ [93, 184, 216, 34])

/-- An I2P address. -/
def peerI2P : CNetAddr := ofIpBytes (pchGarliCat ++ [1, 2, 3, 4, 5, 6, 7, 8, 9, 10])

/-- An IPv4 address is banned for a day, although the bans are swept and it is banned again for a
minute. -/
theorem bans_hold_ipv4 :
    isBanned (runBans dayEnv [(1000, .ban (.addr peerIPv4) .nodeMisbehaving 0 false),
    (2000, .sweepBanned),
      (3000, .ban (.addr peerIPv4) .manuallyAdded 60 false)]) 80000 peerIPv4 = true :=
  ((bans_hold dayEnv NumericForm.numeric).2 [(1000, .ban (.addr peerIPv4) .nodeMisbehaving 0 false),
    (2000, .sweepBanned), (3000, .ban (.addr peerIPv4) .manuallyAdded 60 false)]
    (by
      have h4 : NetAddr.isI2P peerIPv4 = false := by decide
      simp [BanCall.NoI2P, BanTarget.NoI2P, h4])).kept [] [(2000, .sweepBanned),
      (3000, .ban (.addr peerIPv4) .manuallyAdded 60 false)] 1000 peerIPv4 .nodeMisbehaving 0
        false 80000 rfl
    (by decide) (by simp [BanCall.Lifts]) (by simp) (by decide)

/-- A ban of a valid I2P address does not hit it, and hits a Tor address. -/
theorem bans_hold_not_i2p : dayEnv.resolver.Numeric ∧ NetAddr.isValid peerI2P = true ∧
      lookupHost dayEnv.resolver (toStringIP dayEnv.resolver peerI2P) = some (onionTwin peerI2P) ∧
      onionTwin peerI2P ≠ peerI2P ∧
      ¬ BansHold dayEnv [(1000, .ban (.addr peerI2P) .nodeMisbehaving 0 false)] ∧
      isBanned (runBans dayEnv [(1000, .ban (.addr peerI2P) .nodeMisbehaving 0 false)]) 1001
      peerI2P = false ∧
      isBanned (runBans dayEnv [(1000, .ban (.addr peerI2P) .nodeMisbehaving 0 false)]) 1001
        (onionTwin peerI2P) = true := by
  have hi2p : NetAddr.isI2P peerI2P = true := by decide
  have hmissed : isBanned (runBans dayEnv [(1000, .ban (.addr peerI2P) .nodeMisbehaving 0 false)])
    1001
      peerI2P = false := by decide
  refine ⟨NumericForm.numeric, by decide, lookupHost_toString_i2p _ hi2p,
    onionTwin_ne hi2p, ?_, hmissed, by decide⟩
  intro hhold
  have hbanned :=
    hhold.kept [] [] 1000 peerI2P .nodeMisbehaving 0 false 1001 rfl (by decide) nofun
    (by simp) (by decide)
  exact Bool.false_ne_true (hmissed.symm.trans hbanned)

end Espers
