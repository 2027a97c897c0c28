import Zrt.Fs.ChannelItems

/-!
# Seeking on sequential channels

Where a descriptor reads and writes a channel in sequence, its position can be told but not set. The
test for read-only access compares with zero bits and always passes, so a write-only descriptor of a
channel with random reads is positioned like one that reads.
-/

namespace Zrt.Fs

open Zrt.Framework

/-- The rows of the table of channel types without `set`: both directions sequential, or the only one
that the access mode leaves. -/
def SequentialDirection (t : AccessType) (flags : OpenFlags) : Prop :=
  match t with
  | .sgetsput => True
  | .rgetsput => flags.accmode = oWronly
  | .sgetrput => flags.accmode = oRdonly
  | .rgetrput => False

/-- What is behind a descriptor: the id and the flags of its description, and its channel. -/
structure OpenChannel where
  id : Nat
  flags : OpenFlags
  index : Nat
deriving DecidableEq

/-! ## The position functions -/

namespace ChannelOffsets

private theorem channelPosBy_seek {t : AccessType} {flags : OpenFlags} (hseq : SequentialDirection t flags)
    (hgets : t ≠ .rgetsput) (o : ChannelOffsets) (whence : PosWhence) (offset : Int64) :
    o.channelPosBy t flags.accmode whence .seek offset = some (o.tellSequential whence) := by
  cases t with
  | sgetsput => rfl
  | rgetsput => exact absurd rfl hgets
  | sgetrput =>
      have hmode : flags.accmode = oRdonly := hseq
      rw [hmode]
      rfl
  | rgetrput => cases hseq

private theorem channelPosBy_read {t : AccessType} {flags : OpenFlags} (hseq : SequentialDirection t flags)
    (hgets : t ≠ .rgetsput) (o : ChannelOffsets) (whence : PosWhence) (offset : Int64) :
    o.channelPosBy t flags.accmode whence .read offset = some (o.sequentialPos whence offset) := by
  cases t with
  | sgetsput => rfl
  | rgetsput => exact absurd rfl hgets
  | sgetrput => rfl
  | rgetrput => cases hseq

private theorem channelPosBy_seek_rgetsput (o : ChannelOffsets) (flags : Nat) (whence : PosWhence)
    (offset : Int64) :
    o.channelPosBy .rgetsput flags whence .seek offset = some (o.randomPos whence offset) := by
  rw [channelPosBy, channelPosRandomGetSequenPut, checkFlag_rdonly, Bool.true_or, if_pos rfl]

private theorem sequentialPos_setAbsolute {o : ChannelOffsets} {next : Int64} (hnext : ¬next < 0) :
    o.sequentialPos .setAbsolute next = (.ok next, { o with channelSequentialOffset := next }) := by
  simp [sequentialPos, setSafeOffset, hnext]

end ChannelOffsets

private theorem toInt_add_transferred {pos : Int64} {count : UInt32} {n : Int} (hpos : 0 ≤ pos)
    (hroom : ¬pos + Int64.ofNat count.toNat < 0) (hn : 0 ≤ n) (hle : n ≤ count.toNat) :
    (pos + Int64.ofInt n).toInt = pos.toInt + n := by
  have hcount := count.toNat_lt
  have hlt := pos.toInt_lt
  have hge := Int64.le_iff_toInt_le.mp hpos
  have hroom' := Int64.le_iff_toInt_le.mp (Int64.not_lt.mp hroom)
  rw [Int64.toInt_add, Int64.toInt_ofNat_of_lt (by omega), Int.bmod_def] at hroom'
  rw [Int64.toInt_add, Int64.toInt_ofInt_of_le (by omega) (by omega), Int.bmod_def]
  have hzero : (0 : Int64).toInt = 0 := rfl
  rw [hzero] at hge hroom'
  split at hroom' <;> split <;> omega

private theorem intOfCount_le (count : UInt32) : intOfCount count ≤ count.toNat := by
  have hlt := count.toNat_lt
  unfold intOfCount
  rw [Int.bmod_def]
  split <;> omega

theorem le_of_emulated {p q r : Prop} [Decidable p] [Decidable q] [Decidable r] {count : UInt32}
    {k n : Int} (hk : k ≤ 0)
    (h : (if p then some (intOfCount count) else if q then some k
      else if r then some (intOfCount count) else none) = some n) : n ≤ count.toNat := by
  have hle := intOfCount_le count
  split at h
  · rwa [← Option.some.inj h]
  · split at h
    · rw [← Option.some.inj h]
      omega
    · split at h
      · rwa [← Option.some.inj h]
      · cases h

private theorem emuHandleRead_le {m : ChannelMounts} {inode : Nat} {count : UInt32} {n : Int}
    (h : emuHandleRead m inode count = some n) : n ≤ count.toNat := by
  obtain ⟨c, -, h⟩ := Option.bind_eq_some_iff.mp h
  exact le_of_emulated (Int.le_refl 0) h

private theorem emuHandleWrite_le {m : ChannelMounts} {inode : Nat} {count : UInt32} {n : Int}
    (h : emuHandleWrite m inode count = some n) : n ≤ count.toNat := by
  obtain ⟨c, -, h⟩ := Option.bind_eq_some_iff.mp h
  exact le_of_emulated (by decide) h

theorem transferred_le {channels : Nat} {count : UInt32} (zvm : ZvmAnswer channels count) (n : Nat)
    {emulated : Option Int} (h : ∀ r, emulated = some r → r ≤ count.toNat) :
    emulated.getD (zvm.answer n) ≤ count.toNat := by
  cases emulated with
  | none => exact zvm.atMost n
  | some r => exact h r rfl

/-! ## One descriptor -/

namespace ChannelIo

variable {ch : SizedChannels} {s s' : ChannelIo} {fd : Nat} {o : OpenChannel}

/-- The checks of `channel_pos`. -/
def channelBehind (ch : SizedChannels) (s : ChannelIo) (fd : Nat) : Option OpenChannel :=
  (s.fs.channelsEntry fd).bind fun item =>
    item.openFileDescriptionId.bind fun id =>
      (s.fs.files.pool.entry (some id)).bind fun ofd =>
        (ch.mount.matchByInode item.inode).map fun c => ⟨id, ofd.flags, c.2⟩

theorem channelBehind_eq_some (h : s.channelBehind ch fd = some o) :
    ∃ item c, s.fs.channelsEntry fd = some item ∧ item.openFileDescriptionId = some o.id ∧
      (∃ refs, s.fs.files.pool.entry (some o.id) = some ⟨o.flags, refs⟩) ∧
      ch.mount.matchByInode item.inode = some c ∧ c.2 = o.index := by
  obtain ⟨item, hentry, h⟩ := Option.bind_eq_some_iff.mp h
  obtain ⟨id, hid, h⟩ := Option.bind_eq_some_iff.mp h
  obtain ⟨ofd, hofd, h⟩ := Option.bind_eq_some_iff.mp h
  obtain ⟨c, hc, rfl⟩ := Option.map_eq_some_iff.mp h
  exact ⟨item, c, hentry, hid, ⟨ofd.refcount, hofd⟩, hc, rfl⟩

theorem channelPos_of_behind (h : s.channelBehind ch fd = some o) (whence : PosWhence)
    (access : PosAccess) (offset : Int64) :
    s.channelPos ch fd whence access offset =
      ((s.offsets o.id).channelPosBy (ch.attrs o.index).accessType o.flags.accmode whence access
        offset).map fun r => (r.1, s.setOffsets o.id r.2) := by
  obtain ⟨item, c, hentry, hid, ⟨refs, hofd⟩, hc, hindex⟩ := channelBehind_eq_some h
  unfold channelPos
  simp only [hentry, hid, hofd, hc, Option.bind_some, hindex]

@[simp] theorem setOffsets_self (s : ChannelIo) (id : Nat) : s.setOffsets id (s.offsets id) = s := by
  simp only [setOffsets, Function.update_eq_self]

/-- The rules for a descriptor of sequential access: it cannot be positioned, it tells the sequential
offset, and it is this offset that a transfer moves. -/
structure SeekRules (ch : SizedChannels) (s : ChannelIo) (fd id : Nat) : Prop where
  refused : ∀ (offset : Int64) (whence : Whence),
    whence = .seekSet ∨ whence = .seekEnd ∨ (whence = .seekCur ∧ offset ≠ 0) →
      s.channelsLseek ch fd offset whence = some (.error .espipe, s)
  told : s.channelsLseek ch fd 0 .seekCur =
    some (.ok (s.offsets id).channelSequentialOffset.toInt, s)
  advanced : ∀ (count : UInt32) (zvm : ZvmAnswer ch.mount.channels.length count) (n : Int)
    (s' : ChannelIo), s.channelsRead ch fd count zvm = some (.ok n, s') ∨
        s.channelsWrite ch fd count zvm = some (.ok n, s') →
      (s'.offsets id).offset = (s.offsets id).offset ∧
      (s'.offsets id).channelSequentialOffset.toInt =
        (s.offsets id).channelSequentialOffset.toInt + n

/-! ### Transfers -/

private theorem channelsPread_ok {count : UInt32} {zvm : ZvmAnswer ch.mount.channels.length count}
    {offset : Int64} {n : Int} (hcall : s.channelsPread ch fd count zvm offset = some (.ok n, s')) :
    0 ≤ n ∧ n ≤ count.toNat ∧ s.advance ch fd .read offset n = some s' := by
  unfold channelsPread at hcall
  cases hentry : s.fs.channelsEntry fd with
  | none =>
      rw [hentry] at hcall
      cases hcall
  | some item =>
      simp only [hentry] at hcall
      obtain ⟨ofd, -, hcall⟩ := Option.bind_eq_some_iff.mp hcall
      split at hcall
      · cases hcall
      · have hle := transferred_le zvm (zvmInodeFromInode item.inode)
          fun r (hr : emuHandleRead ch.mount item.inode count = some r) => emuHandleRead_le hr
        obtain ⟨s₁, hadvance, heq⟩ := Option.map_eq_some_iff.mp hcall
        split at heq
        · cases heq
        · rename_i hneg
          cases heq
          exact ⟨Int.not_lt.mp hneg, hle, hadvance⟩

theorem channelsPwrite_ok {item : HandleItem} (hentry : s.fs.channelsEntry fd = some item)
    {count : UInt32} {zvm : ZvmAnswer ch.mount.channels.length count} {offset : Int64} {n : Int}
    (hcall : s.channelsPwrite ch fd count zvm offset = some (.ok n, s')) :
    0 ≤ n ∧ n ≤ count.toNat ∧
      (∃ ofd, s.fs.files.pool.entry item.openFileDescriptionId = some ofd ∧
        ofd.flags.accmode ≠ oRdonly) ∧
      ∃ s₁, s.advance ch fd .write offset n = some s₁ ∧
        s₁.updateArtificialChannelSize ch fd item.inode = some s' := by
  unfold channelsPwrite at hcall
  simp only [hentry] at hcall
  obtain ⟨ofd, hofd, hcall⟩ := Option.bind_eq_some_iff.mp hcall
  split at hcall
  · cases hcall
  · rename_i hmode
    have hle := transferred_le zvm (zvmInodeFromInode item.inode)
      fun r (hr : emuHandleWrite ch.mount item.inode count = some r) => emuHandleWrite_le hr
    obtain ⟨s₁, hadvance, hcall⟩ := Option.bind_eq_some_iff.mp hcall
    split at hcall
    · cases hcall
    · rename_i hneg
      obtain ⟨s₂, hupdate, heq⟩ := Option.map_eq_some_iff.mp hcall
      cases heq
      refine ⟨Int.not_lt.mp hneg, hle, ⟨ofd, hofd, fun hrdonly => hmode ?_⟩, s₁, hadvance, hupdate⟩
      rw [hrdonly]
      decide

/-- The accesses that go through the sequential offset. -/
def SequentialAccess (ch : SizedChannels) (s : ChannelIo) (o : OpenChannel) (access : PosAccess) :
    Prop :=
  ∀ whence offset, (s.offsets o.id).channelPosBy (ch.attrs o.index).accessType o.flags.accmode whence
    access offset = some ((s.offsets o.id).sequentialPos whence offset)

theorem SequentialAccess.channelPos_get {access : PosAccess} (haccess : SequentialAccess ch s o access)
    (hbehind : s.channelBehind ch fd = some o) (offset : Int64) :
    s.channelPos ch fd .get access offset =
      some (.ok (s.offsets o.id).channelSequentialOffset, s) := by
  rw [channelPos_of_behind hbehind, haccess, Option.map_some, ChannelOffsets.sequentialPos, if_pos rfl,
    setOffsets_self]

theorem SequentialAccess.advance {access : PosAccess} (haccess : SequentialAccess ch s o access)
    (hbehind : s.channelBehind ch fd = some o) (hnonneg : (s.offsets o.id).Nonneg) {count : UInt32}
    {n : Int}
    (hroom : ¬(s.offsets o.id).channelSequentialOffset + Int64.ofNat count.toNat < 0) (hn : 0 ≤ n)
    (hle : n ≤ count.toNat)
    (hadvance : s.advance ch fd access (s.offsets o.id).channelSequentialOffset n = some s') :
    (s'.offsets o.id).offset = (s.offsets o.id).offset ∧
      (s'.offsets o.id).channelSequentialOffset.toInt =
        (s.offsets o.id).channelSequentialOffset.toInt + n := by
  have hsum := toInt_add_transferred hnonneg.sequential hroom hn hle
  have hge := Int64.le_iff_toInt_le.mp hnonneg.sequential
  have hzero : (0 : Int64).toInt = 0 := rfl
  unfold ChannelIo.advance at hadvance
  split at hadvance
  · have hsafe : ¬(s.offsets o.id).channelSequentialOffset + Int64.ofInt n < 0 := by
      rw [Int64.lt_iff_toInt_lt, hsum]
      omega
    rw [channelPos_of_behind hbehind, haccess, ChannelOffsets.sequentialPos_setAbsolute hsafe] at hadvance
    cases hadvance
    simp only [setOffsets, Function.update_self]
    exact ⟨trivial, hsum⟩
  · cases hadvance
    exact ⟨rfl, by omega⟩

section Sequential

variable (hbehind : s.channelBehind ch fd = some o)
  (hseq : SequentialDirection (ch.attrs o.index).accessType o.flags)
  (hgets : (ch.attrs o.index).accessType ≠ .rgetsput)

include hbehind hseq hgets

theorem channelPos_seek (whence : PosWhence) (offset : Int64) :
    s.channelPos ch fd whence .seek offset =
      some (if whence = .get then .ok (s.offsets o.id).channelSequentialOffset
        else .error .espipe, s) := by
  rw [channelPos_of_behind hbehind, ChannelOffsets.channelPosBy_seek hseq hgets, Option.map_some,
    ChannelOffsets.tellSequential_snd, setOffsets_self]
  unfold ChannelOffsets.tellSequential
  split
  · rfl
  · rfl

private theorem channelsLseek_refused (offset : Int64) (whence : Whence)
    (hwhence : whence = .seekSet ∨ whence = .seekEnd ∨ (whence = .seekCur ∧ offset ≠ 0)) :
    s.channelsLseek ch fd offset whence = some (.error .espipe, s) := by
  obtain ⟨item, c, hentry, -, -, hc, -⟩ := channelBehind_eq_some hbehind
  have hpos := channelPos_seek hbehind hseq hgets
  unfold channelsLseek
  rcases hwhence with rfl | rfl | ⟨rfl, hne⟩
  · simp only [hentry, hpos]
    rfl
  · simp only [hentry, hpos, hc, Option.bind_some]
    rfl
  · simp only [hentry, hpos, if_neg hne]
    rfl

private theorem channelsLseek_told : s.channelsLseek ch fd 0 .seekCur =
    some (.ok (s.offsets o.id).channelSequentialOffset.toInt, s) := by
  obtain ⟨item, c, hentry, -⟩ := channelBehind_eq_some hbehind
  have hpos := channelPos_seek hbehind hseq hgets
  unfold channelsLseek
  simp only [hentry, hpos, if_true]
  rfl

private theorem channelsRead_advances (h : Sound ch s) {count : UInt32}
    {zvm : ZvmAnswer ch.mount.channels.length count} {n : Int}
    (hread : s.channelsRead ch fd count zvm = some (.ok n, s')) :
    (s'.offsets o.id).offset = (s.offsets o.id).offset ∧
      (s'.offsets o.id).channelSequentialOffset.toInt =
        (s.offsets o.id).channelSequentialOffset.toInt + n := by
  obtain ⟨item, c, hentry, -⟩ := channelBehind_eq_some hbehind
  obtain ⟨hhandle, -⟩ := Option.filter_eq_some_iff.mp hentry
  have haccess : SequentialAccess ch s o .read := ChannelOffsets.channelPosBy_read hseq hgets _
  unfold channelsRead at hread
  simp only [hhandle, haccess.channelPos_get hbehind, Option.bind_some] at hread
  split at hread
  · cases hread
  · rename_i hroom
    obtain ⟨hn, hle, hadvance⟩ := channelsPread_ok hread
    exact haccess.advance hbehind (h.nonneg o.id) hroom hn hle hadvance

private theorem sgetsput_of_channelsWrite (h : Sound ch s) {count : UInt32}
    {zvm : ZvmAnswer ch.mount.channels.length count} {n : Int}
    (hwrite : s.channelsWrite ch fd count zvm = some (.ok n, s')) :
    (ch.attrs o.index).accessType = .sgetsput := by
  obtain ⟨item, c, hentry, hid, ⟨refs, hofd⟩, hc, -⟩ := channelBehind_eq_some hbehind
  have hitem : HasItem ch s fd := by
    intro item' hitem'
    rw [hentry] at hitem'
    cases hitem'
    exact ⟨c, hc⟩
  obtain ⟨hhandle, -⟩ := Option.filter_eq_some_iff.mp hentry
  obtain ⟨r, s₀, hpos, hfs, -⟩ := h.channelPos hitem .get .write 0
  unfold channelsWrite at hwrite
  simp only [hhandle, hpos, Option.bind_some] at hwrite
  split at hwrite
  · cases hwrite
  · obtain ⟨-, -, ⟨ofd, hofd', hmode⟩, -⟩ := channelsPwrite_ok (by rw [hfs]; exact hentry) hwrite
    rw [hfs, hid, hofd] at hofd'
    cases hofd'
    cases ht : (ch.attrs o.index).accessType with
    | sgetsput => rfl
    | rgetsput => exact absurd ht hgets
    | sgetrput =>
        rw [ht] at hseq
        exact absurd hseq hmode
    | rgetrput =>
        rw [ht] at hseq
        cases hseq

private theorem channelsWrite_advances (h : Sound ch s) {count : UInt32}
    {zvm : ZvmAnswer ch.mount.channels.length count} {n : Int}
    (hwrite : s.channelsWrite ch fd count zvm = some (.ok n, s')) :
    (s'.offsets o.id).offset = (s.offsets o.id).offset ∧
      (s'.offsets o.id).channelSequentialOffset.toInt =
        (s.offsets o.id).channelSequentialOffset.toInt + n := by
  have ht := sgetsput_of_channelsWrite hbehind hseq hgets h hwrite
  obtain ⟨item, c, hentry, -, -, hc, hindex⟩ := channelBehind_eq_some hbehind
  obtain ⟨hhandle, -⟩ := Option.filter_eq_some_iff.mp hentry
  have haccess : SequentialAccess ch s o .write := by
    intro whence offset
    rw [ht]
    rfl
  unfold channelsWrite at hwrite
  simp only [hhandle, haccess.channelPos_get hbehind, Option.bind_some] at hwrite
  split at hwrite
  · cases hwrite
  · rename_i hroom
    obtain ⟨hn, hle, -, s₁, hadvance, hupdate⟩ := channelsPwrite_ok hentry hwrite
    rw [updateArtificialChannelSize, hc, Option.bind_some, hindex, if_pos ht] at hupdate
    cases hupdate
    exact haccess.advance hbehind (h.nonneg o.id) hroom hn hle hadvance

end Sequential

/-- At any time the rules hold for a descriptor of sequential access unless it writes a channel with
random reads. -/
private theorem Sound.seekRules_iff (h : Sound ch s) (hbehind : s.channelBehind ch fd = some o)
    (hseq : SequentialDirection (ch.attrs o.index).accessType o.flags) :
    SeekRules ch s fd o.id ↔ (ch.attrs o.index).accessType ≠ .rgetsput := by
  constructor
  · intro hrules ht
    have hrefused := hrules.refused 0 .seekSet (.inl rfl)
    obtain ⟨item, c, hentry, -⟩ := channelBehind_eq_some hbehind
    simp only [ChannelIo.channelsLseek, hentry, channelPos_of_behind hbehind, ht,
      ChannelOffsets.channelPosBy_seek_rgetsput, Option.map_some] at hrefused
    cases hrefused
  · intro hgets
    constructor
    · exact channelsLseek_refused hbehind hseq hgets
    · exact channelsLseek_told hbehind hseq hgets
    · rintro count zvm n s' (hread | hwrite)
      · exact channelsRead_advances hbehind hseq hgets h hread
      · exact channelsWrite_advances hbehind hseq hgets h hwrite

/-- In every state a run reaches, a descriptor of sequential access keeps the seek rules if and only if
its channel is not one of random reads. -/
theorem run_seekRules_iff (ch : SizedChannels) {channels : List AbsolutePath}
    (hmount : channelsFilesystemConstruct channels = some ch.mount) (maxsizes : Nat → Int64)
    (calls : List (ChannelCall ch.mount.channels.length)) {s : ChannelIo}
    (hrun : runFrom (step ch) (start maxsizes) calls = some s) {fd : Nat} {o : OpenChannel}
    (hbehind : s.channelBehind ch fd = some o)
    (hseq : SequentialDirection (ch.attrs o.index).accessType o.flags) :
    SeekRules ch s fd o.id ↔ (ch.attrs o.index).accessType ≠ .rgetsput :=
  (runFrom_preserves (step_sound (ChannelMounts.construct_wf hmount)) calls (start maxsizes) s
    (sound_start maxsizes) hrun).seekRules_iff hbehind hseq

def readCalls : List (ChannelCall inputChannels.mount.channels.length) :=
  [.channelsOpen (.fromRoot "dev/stdin".toList) {}, .read 0 4 (zvmServing _ 4)]

/-- Standard input after a first read. -/
theorem run_seekRules_iff_input :
    ∃ s, runFrom (step inputChannels) (start fun _ => 0) readCalls = some s ∧
      SeekRules inputChannels s 0 0 := by
  have hsome : (runFrom (step inputChannels) (start fun _ => 0) readCalls).isSome := by
    decide
  have hopen : ((runFrom (step inputChannels) (start fun _ => 0) readCalls).bind
      fun s => s.channelBehind inputChannels 0) = some ⟨0, {}, 0⟩ := by decide
  obtain ⟨s, hs⟩ := Option.isSome_iff_exists.mp hsome
  rw [hs, Option.bind_some] at hopen
  have hmount : channelsFilesystemConstruct [.fromRoot "dev/stdin".toList] =
      some inputChannels.mount := by decide
  exact ⟨s, hs, (run_seekRules_iff inputChannels hmount (fun _ => 0) readCalls hs hopen trivial).mpr nofun⟩

/-- A log in `/dev`, written in sequence. -/
def logChannels : SizedChannels where
  mount := ⟨[.fromRoot "dev/log".toList], [⟨12, 12, 3, ['/']⟩, ⟨13, 12, 2, "/dev".toList⟩]⟩
  attrs := fun _ => ⟨.rgetsput, false, .blk, false, true, false, true⟩
  size := fun _ => 0

def logCalls : List (ChannelCall logChannels.mount.channels.length) :=
  [.channelsOpen (.fromRoot "dev/log".toList) { wronly := true }, .write 0 4 (zvmServing _ 4)]

/-- After a write to the log `lseek` goes back to its start. -/
theorem log_seek_accepted :
    ¬∀ (ch : SizedChannels) (channels : List AbsolutePath),
      channelsFilesystemConstruct channels = some ch.mount →
        ∀ (maxsizes : Nat → Int64) (calls : List (ChannelCall ch.mount.channels.length))
          (s : ChannelIo), runFrom (step ch) (start maxsizes) calls = some s →
          ∀ (fd : Nat) (o : OpenChannel), s.channelBehind ch fd = some o →
            SequentialDirection (ch.attrs o.index).accessType o.flags → SeekRules ch s fd o.id := by
  intro h
  have hsome : (runFrom (step logChannels) (start fun _ => 0) logCalls).isSome := by decide
  have hopen : ((runFrom (step logChannels) (start fun _ => 0) logCalls).bind
      fun s => s.channelBehind logChannels 0) = some ⟨0, { wronly := true }, 0⟩ := by decide
  obtain ⟨s, hs⟩ := Option.isSome_iff_exists.mp hsome
  rw [hs, Option.bind_some] at hopen
  have hrules := h logChannels [.fromRoot "dev/log".toList] (by decide) (fun _ => 0) logCalls s hs 0
    ⟨0, { wronly := true }, 0⟩ hopen rfl
  have hrefused := hrules.refused 0 .seekSet (.inl rfl)
  obtain ⟨item, c, hentry, -⟩ := channelBehind_eq_some hopen
  simp only [channelsLseek, hentry, channelPos_of_behind hopen] at hrefused
  cases hrefused

end ChannelIo

end Zrt.Fs
