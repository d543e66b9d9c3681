import Xv6.Fs.Logged
import Xv6.Fs.Lookup
import Xv6.Fs.Syscall

/-!
# Writing to an open file

`filewrite` cuts a request into chunks of at most 1536 bytes and writes each in a transaction of its
own. Where the whole request fits, the chunks add up to the single `writei` of all bytes. Where it
does not fit, a chunk after the first may be the one that is refused, and the call fails with the
chunks before it in place.
-/

namespace Xv6.Fs

open Lib

variable {P : Type}

/-- The open file `f` is on the regular file with inode number `n` and cache entry `ip`, which has
the contents `c`; the next byte is written at `off`. -/
structure FileAt (sb : SuperBlock) (f : Fin NFILE) (ip : Ip) (n : ℕ)
    (locked : Bool) (c : List UInt8)
    (off : ℕ) (s : Sys P) : Prop where
  layout : sb.Ok
  sound : Sound sb s.ic.disk
  type : (s.ftable f).type = .inode
  ip_eq : (s.ftable f).ip = ip
  off_eq : (s.ftable f).off = off
  off_lt : off < 2 ^ 32
  ref : 0 < (s.ic.icache ip).ref
  lock : (s.ic.icache ip).lock = locked
  inum : (s.ic.icache ip).inum = n
  lt : n < sb.ninodes
  valid : locked = true → (s.ic.icache ip).valid = true
  sync : (s.ic.icache ip).valid = true → (s.ic.icache ip).din = getDinode sb s.ic.disk n
  file : (getDinode sb s.ic.disk n).type = T_FILE
  contents_eq : contents s.ic.disk (getDinode sb s.ic.disk n) = c

/-! ### The steps of one chunk -/

section Steps

variable {e : Env} {f : Fin NFILE} {ip : Ip} {n off : ℕ} {b : Bool} {c : List UInt8} {s : Sys P}
  {E : Fault → Prop}

theorem wp_onIc {α : Type} {x : IcM α} {Q : α → Sys P → Prop} :
    Wp (onIc x) s Q E ↔ Wp x s.ic (fun a ic => Q a { s with ic := ic }) E := Wp.zoom_iff

theorem wp_modifyFile {g : File → File} {Q : Unit → Sys P → Prop} :
    Wp (modifyFile f g) s Q E ↔
      Q () { s with ftable := Function.update s.ftable f (g (s.ftable f)) } := Iff.rfl

theorem FileAt.size_eq {sb : SuperBlock} (h : FileAt sb f ip n b c off s) :
    (getDinode sb s.ic.disk n).size = c.length := by
  rw [← h.contents_eq, contents_length]

theorem FileAt.type_ne {sb : SuperBlock} (h : FileAt sb f ip n b c off s) :
    (getDinode sb s.ic.disk n).type ≠ 0 ∧ (getDinode sb s.ic.disk n).type ≠ T_DEV := by
  rw [h.file]
  decide

theorem FileAt.ilock (h : FileAt e.sb f ip n false c off s) :
    Wp (onIc (P := P) (ilock e ip)) s (fun _ s' => FileAt e.sb f ip n true c off s' ∧
      s'.ic.disk = s.ic.disk ∧ s'.ftable = s.ftable) fun _ => False := by
  rw [wp_onIc, wp_ilock_synced h.ref h.lock (by rw [h.inum]; exact h.sync)
    (by rw [h.inum]; exact h.type_ne.1), h.inum]
  refine ⟨⟨h.layout, h.sound, h.type, h.ip_eq, h.off_eq, h.off_lt, ?_, ?_, ?_, h.lt, fun _ => ?_,
    fun _ => ?_, h.file, h.contents_eq⟩, rfl, rfl⟩
  all_goals simp only [Ic.set_icache_self, Ic.set_disk]
  exact h.ref

theorem FileAt.iunlock (h : FileAt e.sb f ip n true c off s) :
    Wp (onIc (P := P) (iunlock ip)) s (fun _ s' => FileAt e.sb f ip n false c off s' ∧
      s'.ic.disk = s.ic.disk ∧ s'.ftable = s.ftable) fun _ => False := by
  rw [wp_onIc, Fs.iunlock, Wp.bind_iff, wp_inode, if_neg, wp_modifyInode]
  · refine ⟨⟨h.layout, h.sound, h.type, h.ip_eq, h.off_eq, h.off_lt, ?_, ?_, ?_, h.lt, nofun,
      fun hv => ?_, h.file, h.contents_eq⟩, rfl, rfl⟩
    all_goals simp only [Ic.set_icache_self, Ic.set_disk] at *
    · exact h.ref
    · exact h.inum
    · exact h.sync hv
  · rw [h.lock]
    have := h.ref
    simp
    omega

/-- Moving the offset. -/
theorem FileAt.advance (h : FileAt e.sb f ip n b c off s) {off' : ℕ} (hlt : off' < 2 ^ 32)
    {g : File → File} (hg : g (s.ftable f) = { s.ftable f with off := off' }) :
    FileAt e.sb f ip n b c off'
      { s with ftable := Function.update s.ftable f (g (s.ftable f)) } := by
  refine ⟨h.layout, h.sound, ?_, ?_, ?_, hlt, h.ref, h.lock, h.inum, h.lt, h.valid, h.sync, h.file,
    h.contents_eq⟩
  all_goals simp only [Function.update_self, hg]
  · exact h.type
  · exact h.ip_eq

/-- What a write needs: it starts in the file or at its end, and stays below the largest size. -/
theorem FileAt.not_rejected {sb : SuperBlock} (h : FileAt sb f ip n b c off s)
    {len : ℕ} (hoff : off ≤ c.length) (hmax : off + len ≤ MAXFILE * BSIZE) :
    ¬ WriteRejected (getDinode sb s.ic.disk n) off len := by
  have : MAXFILE * BSIZE < 2 ^ 32 := by decide
  unfold WriteRejected
  rw [h.size_eq]
  omega

/-- Writing a chunk that is not refused. -/
theorem FileAt.writei (h : FileAt e.sb f ip n true c off s) {chunk : List UInt8}
    (hoff : off ≤ c.length) (hmax : off + chunk.length ≤ MAXFILE * BSIZE) :
    Wp (onIc (P := P) (onInode ip fun i => writei e i.inum i.din chunk off)) s
      (fun r s' => r = some chunk.length ∧ FileAt e.sb f ip n true (overwrite c off chunk) off s' ∧
        s'.ftable = s.ftable ∧
        ∀ len, Room e.sb s.ic.disk n off (chunk.length + len) →
          Room e.sb s'.ic.disk n (off + chunk.length) len)
      (OutOf e.sb s.ic.disk (missingIn s.ic.disk (getDinode e.sb s.ic.disk n)
        off chunk.length).card) := by
  rw [wp_onIc, wp_onInode, h.inum, h.sync (h.valid rfl)]
  refine (writei_room h.layout h.sound h.lt h.type_ne.1 h.type_ne.2
    (h.not_rejected hoff hmax)).post ?_
  rintro ⟨r, din⟩ d' ⟨hr, hw, hroom⟩
  have hrec : getDinode e.sb d' n = din := hw.record
  refine ⟨hr, ⟨h.layout, hw.sound, h.type, h.ip_eq, h.off_eq, h.off_lt, ?_, ?_,
    ?_, h.lt, fun _ => ?_,
    fun _ => ?_, ?_, ?_⟩, rfl, hroom⟩
  all_goals simp only [Ic.set_icache_self, Ic.set_disk]
  · exact h.ref
  · exact h.lock
  · exact h.inum
  · exact h.valid rfl
  · exact hrec.symm
  · rw [hw.record, hw.head]
    exact h.file
  · rw [hw.record, hw.contents_eq, h.contents_eq]
    rfl

/-- A chunk that is refused. -/
theorem FileAt.writei_rejected (h : FileAt e.sb f ip n true c off s) {chunk : List UInt8}
    (hlen : chunk.length < 2 ^ 32) (hrej : c.length < off ∨ MAXFILE * BSIZE < off + chunk.length) :
    Wp (onIc (P := P) (onInode ip fun i => Fs.writei e i.inum i.din chunk off)) s
      (fun r s' => r = none ∧ s' = s) fun _ => False := by
  have hrej' : WriteRejected (getDinode e.sb s.ic.disk n) off chunk.length := by
    rw [WriteRejected, h.size_eq]
    exact hrej.imp_right .inr
  rw [wp_onIc, wp_onInode, h.inum, h.sync (h.valid rfl),
    writei_eq_of_rejected h.type_ne.2 hlen hrej', Wp.pure_iff]
  refine ⟨rfl, ?_⟩
  rw [← h.sync (h.valid rfl)]
  exact congrArg (fun ic => { s with ic := ic }) (Ic.set_eq_self s.ic ip)

end Steps

/-! ### The loop -/

section Loop

variable {e : Env} {f : Fin NFILE} {ip : Ip} {n off : ℕ} {c : List UInt8} {s : Sys P}

theorem writeMax_pos : 0 < writeMax := by decide

/-- Two ranges written one after the other. -/
theorem overwrite_append {l : List UInt8} (hoff : off ≤ l.length) (a b : List UInt8) :
    overwrite (overwrite l off a) (off + a.length) b = overwrite l off (a ++ b) := by
  have hleft : (l.take off ++ a).length = off + a.length := by
    rw [List.length_append, List.length_take_of_le hoff]
  unfold overwrite
  rw [List.take_left' hleft, ← List.drop_drop, List.drop_left' hleft, List.drop_drop,
    List.length_append, Nat.add_assoc, List.append_assoc (l.take off)]

/-- One pass of the loop. -/
theorem FileAt.writeChunk (h : FileAt e.sb f ip n false c off s) {chunk : List UInt8}
    (hoff : off ≤ c.length) (hmax : off + chunk.length ≤ MAXFILE * BSIZE) :
    Wp (writeChunk (P := P) e f ip chunk) s
      (fun r s' => r = some chunk.length ∧
        FileAt e.sb f ip n false (overwrite c off chunk) (off + chunk.length) s' ∧
        ∀ len, Room e.sb s.ic.disk n off (chunk.length + len) →
          Room e.sb s'.ic.disk n (off + chunk.length) len)
      fun err => err = .panic .balloc ∧ ¬ Room e.sb s.ic.disk n off chunk.length := by
  have hlt : off + chunk.length < 2 ^ 32 := hmax.trans_lt (by decide)
  unfold Fs.writeChunk
  refine (h.ilock.mono (fun _ _ => id) fun _ => False.elim).bind ?_
  rintro - s₁ ⟨h₁, hdisk₁, -⟩
  rw [Wp.bind_iff, Wp.get_iff, h₁.off_eq]
  refine ((h₁.writei hoff hmax).mono (fun _ _ => id) ?_).bind ?_
  · rintro err ⟨herr, hlt⟩
    rw [hdisk₁] at hlt
    exact ⟨herr, Nat.not_le.mpr hlt⟩
  rintro r s₂ ⟨rfl, h₂, -, hroom⟩
  rw [Wp.bind_iff, wp_modifyFile]
  have h₃ := h₂.advance hlt (g := fun x => { x with off := (x.off + chunk.length) % 2 ^ 32 })
    (by simp only [h₂.off_eq, Nat.mod_eq_of_lt hlt])
  refine (h₃.iunlock.mono (fun _ _ => id) fun _ => False.elim).bind ?_
  rintro - s₄ ⟨h₄, hdisk₄, -⟩
  rw [Wp.pure_iff]
  refine ⟨rfl, h₄, fun len hr => ?_⟩
  rw [hdisk₄]
  rw [← hdisk₁] at hr
  exact hroom len hr

/-- A pass that is refused. -/
theorem FileAt.writeChunk_rejected (h : FileAt e.sb f ip n false c off s) {chunk : List UInt8}
    (hlen : chunk.length < 2 ^ 32) (hrej : c.length < off ∨ MAXFILE * BSIZE < off + chunk.length) :
    Wp (Fs.writeChunk (P := P) e f ip chunk) s
      (fun r s' => r = none ∧ FileAt e.sb f ip n false c off s') fun _ => False := by
  unfold Fs.writeChunk
  refine h.ilock.bind ?_
  rintro - s₁ ⟨h₁, -, -⟩
  rw [Wp.bind_iff, Wp.get_iff, h₁.off_eq]
  refine (h₁.writei_rejected hlen hrej).bind ?_
  rintro r _ ⟨rfl, rfl⟩
  rw [Wp.bind_iff, wp_modifyFile]
  have h₃ := h₁.advance h₁.off_lt (g := fun x => { x with off := (x.off + 0) % 2 ^ 32 })
    (by simp only [h₁.off_eq, Nat.add_zero, Nat.mod_eq_of_lt h₁.off_lt])
  refine h₃.iunlock.bind ?_
  rintro - s₄ ⟨h₄, -, -⟩
  exact ⟨rfl, h₄⟩

/-- The loop writes all its bytes, or runs out of blocks. -/
theorem FileAt.filewriteLoop (h : FileAt e.sb f ip n false c off s) {fuel : ℕ} {src : List UInt8}
    (hfuel : src.length ≤ fuel) (hoff : off ≤ c.length)
    (hmax : off + src.length ≤ MAXFILE * BSIZE) :
    Wp (filewriteLoop (P := P) e f ip fuel src) s
      (fun r s' => r = true ∧ FileAt e.sb f ip n false (overwrite c off src) (off + src.length) s' ∧
        ∀ len, Room e.sb s.ic.disk n off (src.length + len) →
          Room e.sb s'.ic.disk n (off + src.length) len)
      fun err => err = .panic .balloc ∧ ¬ Room e.sb s.ic.disk n off src.length := by
  have hnil : overwrite c off [] = c := by simp [overwrite]
  induction fuel generalizing src off c s with
  | zero =>
    obtain rfl : src = [] := List.eq_nil_of_length_eq_zero (Nat.le_zero.mp hfuel)
    rw [Fs.filewriteLoop, Wp.pure_iff, hnil]
    exact ⟨rfl, h, fun len hr => by rwa [List.length_nil, Nat.zero_add] at hr⟩
  | succ fuel ih =>
    rw [Fs.filewriteLoop]
    split_ifs with hsrc
    · subst hsrc
      rw [Wp.pure_iff, hnil]
      exact ⟨rfl, h, fun len hr => by rwa [List.length_nil, Nat.zero_add] at hr⟩
    -- `n1`: at most what one transaction can hold
    set chunk := src.take writeMax with hchunk
    set rest := src.drop writeMax with hrest
    have happend : chunk ++ rest = src := List.take_append_drop writeMax src
    have hlen : src.length = chunk.length + rest.length := by rw [← happend, List.length_append]
    have hpos : 0 < chunk.length := by
      rw [hchunk, List.length_take, Nat.lt_min]
      exact ⟨writeMax_pos, List.length_pos_iff.mpr hsrc⟩
    refine ((h.writeChunk hoff (by omega)).mono (fun _ _ => id) ?_).bind ?_
    · rintro err ⟨herr, hno⟩
      refine ⟨herr, fun hr => hno ?_⟩
      rw [hlen] at hr
      exact hr.left
    rintro r s₁ ⟨rfl, h₁, hroom⟩
    dsimp only
    rw [if_neg (not_not.mpr rfl)]
    have hoff₁ : off + chunk.length ≤ (overwrite c off chunk).length := by
      rw [overwrite_length hoff]
      exact Nat.le_max_right _ _
    refine (ih h₁ (by omega) hoff₁ (by omega) (by simp [overwrite])).mono ?_ ?_
    · rintro r s₂ ⟨hr, h₂, hroom₂⟩
      rw [overwrite_append hoff, happend, Nat.add_assoc, ← hlen] at h₂
      refine ⟨hr, h₂, fun len hlong => ?_⟩
      rw [hlen, Nat.add_assoc] at hlong
      rw [hlen, ← Nat.add_assoc]
      exact hroom₂ len (hroom _ hlong)
    · rintro err ⟨herr, hno⟩
      refine ⟨herr, fun hr => hno (hroom _ ?_)⟩
      rwa [← hlen]

/-- A request that fits. -/
theorem FileAt.filewrite (h : FileAt e.sb f ip n false c off s)
    (hwritable : (s.ftable f).writable = true) {src : List UInt8} (hoff : off ≤ c.length)
    (hmax : off + src.length ≤ MAXFILE * BSIZE) :
    Wp (filewrite (P := P) e f src) s
      (fun r s' => r = true ∧ FileAt e.sb f ip n false (overwrite c off src) (off + src.length) s' ∧
        ∀ len, Room e.sb s.ic.disk n off (src.length + len) →
          Room e.sb s'.ic.disk n (off + src.length) len)
      fun err => err = .panic .balloc ∧ ¬ Room e.sb s.ic.disk n off src.length := by
  unfold Fs.filewrite
  rw [Wp.bind_iff, Wp.get_iff, if_neg (by rw [hwritable]; decide), h.type, h.ip_eq]
  exact h.filewriteLoop le_rfl hoff hmax

/-- A request whose first chunk is refused. -/
theorem FileAt.filewrite_rejected (h : FileAt e.sb f ip n false c off s) {src : List UInt8}
    (hsrc : src ≠ []) (hrej : c.length < off ∨ MAXFILE * BSIZE < off + min src.length writeMax) :
    Wp (Fs.filewrite (P := P) e f src) s
      (fun r s' => r = false ∧ FileAt e.sb f ip n false c off s') fun _ => False := by
  have hlen : (src.take writeMax).length = min src.length writeMax := by
    rw [List.length_take, Nat.min_comm]
  have hlt : (src.take writeMax).length < 2 ^ 32 := by
    rw [hlen]
    exact (Nat.min_le_right _ _).trans_lt (by decide)
  unfold Fs.filewrite
  rw [Wp.bind_iff, Wp.get_iff]
  dsimp only
  split_ifs with hw
  · exact ⟨rfl, h⟩
  · obtain ⟨k, hk⟩ := Nat.exists_eq_succ_of_ne_zero (List.length_pos_iff.mpr hsrc).ne'
    rw [h.type, h.ip_eq, hk]
    dsimp only
    rw [Fs.filewriteLoop, if_neg hsrc]
    refine (h.writeChunk_rejected hlt (by rwa [hlen])).bind ?_
    rintro r s' ⟨rfl, h'⟩
    exact ⟨rfl, h'⟩

/-- What the whole chunks have of a request that starts at `off` and does not fit. -/
def wholeChunks (off : ℕ) : ℕ := (MAXFILE * BSIZE - off) / writeMax * writeMax

theorem wholeChunks_of_le (h : off + writeMax ≤ MAXFILE * BSIZE) :
    wholeChunks off = writeMax + wholeChunks (off + writeMax) := by
  have hsub : MAXFILE * BSIZE - off = (MAXFILE * BSIZE - (off + writeMax)) + writeMax := by omega
  rw [wholeChunks, hsub, Nat.add_div_right _ writeMax_pos, Nat.succ_mul, Nat.add_comm]
  rfl

theorem wholeChunks_of_lt (h : MAXFILE * BSIZE < off + writeMax) : wholeChunks off = 0 := by
  have := writeMax_pos
  rw [wholeChunks, Nat.div_eq_of_lt (by omega), Nat.zero_mul]

/-- A request that does not fit: the chunks that do are written, and the call fails with the first
one that does not. -/
theorem FileAt.filewriteLoop_refused (h : FileAt e.sb f ip n false c off s) {fuel : ℕ}
    {src : List UInt8} (hfuel : src.length ≤ fuel) (hoff : off ≤ c.length)
    (hle : off ≤ MAXFILE * BSIZE) (hbig : MAXFILE * BSIZE < off + src.length) :
    Wp (Fs.filewriteLoop (P := P) e f ip fuel src) s
      (fun r s' => r = false ∧ FileAt e.sb f ip n false
        (overwrite c off (src.take (wholeChunks off))) (off + wholeChunks off) s')
      fun err => err = .panic .balloc ∧ ¬ Room e.sb s.ic.disk n off (wholeChunks off) := by
  induction fuel generalizing src off c s with
  | zero => omega
  | succ fuel ih =>
    have hlen : (src.take writeMax).length = min writeMax src.length := List.length_take
    rw [Fs.filewriteLoop, if_neg (by rintro rfl; simp at hbig; omega)]
    by_cases hfits : off + writeMax ≤ MAXFILE * BSIZE
    · have hchunk : (src.take writeMax).length = writeMax := by omega
      have hpos := writeMax_pos
      rw [wholeChunks_of_le hfits]
      refine ((h.writeChunk hoff (by omega)).mono (fun _ _ => id) ?_).bind ?_
      · rintro err ⟨herr, hno⟩
        rw [hchunk] at hno
        exact ⟨herr, fun hr => hno hr.left⟩
      rintro r s₁ ⟨rfl, h₁, hroom⟩
      dsimp only
      rw [if_neg (not_not.mpr rfl)]
      rw [hchunk] at h₁ hroom
      have hoff₁ : off + writeMax ≤ (overwrite c off (src.take writeMax)).length := by
        rw [overwrite_length hoff, hchunk]
        exact Nat.le_max_right _ _
      have hdrop : (src.drop writeMax).length = src.length - writeMax := List.length_drop
      refine (ih h₁ (by omega) hoff₁ hfits (by omega)).mono ?_ ?_
      · rintro r s₂ ⟨hr, h₂⟩
        have happend := overwrite_append hoff (src.take writeMax)
          ((src.drop writeMax).take (wholeChunks (off + writeMax)))
        rw [hchunk, ← List.take_add] at happend
        rw [happend, Nat.add_assoc] at h₂
        exact ⟨hr, h₂⟩
      · rintro err ⟨herr, hno⟩
        exact ⟨herr, fun hr => hno (hroom _ hr)⟩
    · rw [wholeChunks_of_lt (by omega)]
      have hshort : (src.take writeMax).length < 2 ^ 32 :=
        (List.length_take_le ..).trans_lt (by decide)
      refine ((h.writeChunk_rejected hshort (.inr (by omega))).mono (fun _ _ => id)
        fun _ => False.elim).bind ?_
      rintro r s₁ ⟨rfl, h₁⟩
      refine ⟨rfl, ?_⟩
      have hnil : overwrite c off [] = c := by simp [overwrite]
      rwa [List.take_zero, hnil]

theorem FileAt.filewrite_refused (h : FileAt e.sb f ip n false c off s)
    (hwritable : (s.ftable f).writable = true) {src : List UInt8} (hoff : off ≤ c.length)
    (hle : off ≤ MAXFILE * BSIZE) (hbig : MAXFILE * BSIZE < off + src.length) :
    Wp (Fs.filewrite (P := P) e f src) s
      (fun r s' => r = false ∧ FileAt e.sb f ip n false
        (overwrite c off (src.take (wholeChunks off))) (off + wholeChunks off) s')
      fun err => err = .panic .balloc ∧ ¬ Room e.sb s.ic.disk n off (wholeChunks off) := by
  unfold Fs.filewrite
  rw [Wp.bind_iff, Wp.get_iff, if_neg (by rw [hwritable]; decide), h.type, h.ip_eq]
  exact h.filewriteLoop_refused le_rfl hoff hle hbig

end Loop

/-! ### A disk with one file -/

section OneFile

/-- The first entry of the file table. -/
def firstFile : Fin NFILE := ⟨0, by decide⟩

/-- The file is open, at its beginning. -/
def fileOpen (P : Type) (writable : Bool) : Sys P where
  ic := ⟨fileDisk, fun _ => ⟨⟨2, 1, false, false⟩, .blank 0⟩⟩
  ftable _ := ⟨.inode, 1, true, writable, 0, firstIp, 0⟩
  page _ := ⟨⟨fun _ => 0, 0, 0, false, false⟩, 0, 0⟩
  proc _ := ⟨some firstIp, fun _ => none⟩

theorem fileAt_fileOpen (P : Type) (writable : Bool) (f : Fin NFILE) :
    FileAt wideSb f firstIp 2 false [] 0 (fileOpen P writable) := by
  refine ⟨wideSb_ok, ?_, rfl, rfl, rfl, by decide, Nat.one_pos, rfl,
    rfl, by decide, nofun, nofun, ?_,
    ?_⟩
  · exact (sound_emptyDisk wideSb_ok).putDinode_empty wideSb_ok (by decide)
      (type_emptyDisk wideSb_ok (by decide)) (fun _ => rfl) rfl
  · exact congrArg Dinode.type getDinode_fileDisk
  · refine List.eq_nil_of_length_eq_zero ?_
    rw [contents_length]
    exact congrArg Dinode.size getDinode_fileDisk

end OneFile

/-! ### Whole calls -/

/-- A chunk fits into an empty log, so that its `writei` does the same with and without the log. -/
theorem chunk_agrees {e : Env} {s : Tx} {n off : ℕ} (hok : e.sb.Ok) (h : Sound e.sb s.disk)
    (hn : n < e.sb.ninodes) (ht : (getDinode e.sb s.disk n).type ≠ 0) (hsb : e.sb.size < 20 * BPB)
    (hout : 1 ≤ s.log.outstanding) (hempty : s.log.lh = []) (hsize : LOGSIZE ≤ s.log.size)
    {src : List UInt8} (hsrc : src.length ≤ writeMax) :
    Agrees (Logged.writei e n (getDinode e.sb s.disk n) src off)
      (writei e n (getDinode e.sb s.disk n) src off) s fun _ _ => True := by
  refine writei_agrees hok h hn ht (hsrc.trans_lt (by decide)) (hempty ▸ List.nodup_nil) ⟨hout, ?_⟩
  have hwrite : writeMax = 1536 := rfl
  have hlog : LOGSIZE = 30 := rfl
  have hbits : e.sb.size / BPB < 20 := Nat.div_lt_of_lt_mul (by rwa [Nat.mul_comm])
  have hmod := Nat.mod_lt off (show 0 < BSIZE by decide)
  rw [hempty, List.length_nil]
  generalize e.sb.size / BPB = k at *
  unfold BSIZE at *
  omega

/-- Writing in chunks is writing at once: if the request fits in the largest file and there are
blocks for it, `filewrite` returns the whole count, moves the offset by it and puts the bytes where
they belong. If the log can take all of them in one transaction, these are the contents and the size
that one `writei` of all the bytes gives the file. -/
theorem filewrite_eq_writei {e : Env} {f : Fin NFILE} {ip : Ip} {n off : ℕ} {c : List UInt8}
    {s : Sys P} (h : FileAt e.sb f ip n false c off s) (hwritable : (s.ftable f).writable = true)
    {src : List UInt8} (hoff : off ≤ (getDinode e.sb s.ic.disk n).size)
    (hmax : off + src.length ≤ MAXFILE * BSIZE) (hroom : Room e.sb s.ic.disk n off src.length) :
    ∃ s', filewrite e f src s = .ok (true, s') ∧
      (s'.ftable f).off = (s.ftable f).off + src.length ∧
      contents s'.ic.disk (getDinode e.sb s'.ic.disk n) =
        overwrite (contents s.ic.disk (getDinode e.sb s.ic.disk n)) off src ∧
      ∀ log : Log.LogState, log.lh.Nodup → LogFits e.sb log off src.length →
        ∃ ip' t, Logged.writei e n (getDinode e.sb s.ic.disk n) src off ⟨log, s.ic.disk⟩ =
            .ok ((some src.length, ip'), t) ∧
          (getDinode e.sb s'.ic.disk n).size = (getDinode e.sb t.disk n).size ∧
          contents s'.ic.disk (getDinode e.sb s'.ic.disk n) =
            contents t.disk (getDinode e.sb t.disk n) := by
  rw [h.size_eq] at hoff
  obtain ⟨r, s', hrun, rfl, h', -⟩ := (h.filewrite hwritable hoff hmax).exists_ok
    fun err herr => herr.2 hroom
  refine ⟨s', hrun, by rw [h'.off_eq, h.off_eq], by rw [h'.contents_eq, h.contents_eq], ?_⟩
  intro log hnodup hfits
  obtain ⟨⟨r, ip'⟩, d', hrun', hr, hw⟩ := (writei_spec h.layout h.sound h.lt h.type_ne.1 h.type_ne.2
    (h.not_rejected hoff hmax)).exists_ok fun err hout => absurd hout.2 (Nat.not_lt.mpr hroom)
  obtain rfl : r = some src.length := hr
  have hlen : src.length < 2 ^ 31 := by
    have hmaxfile : MAXFILE * BSIZE < 2 ^ 31 := by decide
    omega
  obtain ⟨t, hlogged, rfl, -⟩ := (writei_agrees (s := ⟨log, s.ic.disk⟩) h.layout h.sound h.lt
    h.type_ne.1 hlen hnodup hfits).of_run hrun'
  have hcontents : contents s'.ic.disk (getDinode e.sb s'.ic.disk n) =
      contents t.disk (getDinode e.sb t.disk n) := by
    rw [h'.contents_eq, hw.record, hw.contents_eq, h.contents_eq]
    rfl
  refine ⟨ip', t, hlogged, ?_, hcontents⟩
  rw [← contents_length s'.ic.disk, hcontents, contents_length]

theorem filewrite_eq_writei_two_chunks :
    ∃ s', filewrite ⟨wideSb, fun _ => none⟩ firstFile (List.replicate 2000 7) (fileOpen Unit true) =
        .ok (true, s') ∧
      (s'.ftable firstFile).off = 2000 ∧
      contents s'.ic.disk (getDinode wideSb s'.ic.disk 2) = List.replicate 2000 7 ∧
      ∃ ip' t, Logged.writei ⟨wideSb, fun _ => none⟩ 2 (getDinode wideSb fileDisk 2)
          (List.replicate 2000 7) 0 ⟨oneOp, fileDisk⟩ = .ok ((some 2000, ip'), t) ∧
        contents t.disk (getDinode wideSb t.disk 2) = List.replicate 2000 7 := by
  have hlen : (List.replicate 2000 (7 : UInt8)).length = 2000 := List.length_replicate
  have hmax : 0 + (List.replicate 2000 (7 : UInt8)).length ≤ MAXFILE * BSIZE := by
    rw [hlen]
    decide
  have hfile := fileAt_fileOpen Unit true firstFile
  obtain ⟨s', hrun, hoff, hcontents, hlogged⟩ := filewrite_eq_writei (e := ⟨wideSb, fun _ => none⟩)
    hfile rfl (Nat.zero_le _) hmax (room_fileDisk _ _)
  have hall : ∀ src : List UInt8, overwrite [] 0 src = src := fun src => by simp [overwrite]
  rw [hfile.contents_eq, hall] at hcontents
  rw [hlen] at hlogged hoff
  obtain ⟨ip', t, hwrite, -, heq⟩ := hlogged oneOp List.nodup_nil (by decide)
  exact ⟨s', hrun, hoff, hcontents, ip', t, hwrite, heq.symm.trans hcontents⟩

/-- A file that is not open for writing: the call fails, where `writei` does not. -/
theorem filewrite_readonly :
    FileAt wideSb firstFile firstIp 2 false [] 0 (fileOpen Unit false) ∧
      Room wideSb fileDisk 2 0 [7].length ∧
      filewrite ⟨wideSb, fun _ => none⟩ firstFile [7] (fileOpen Unit false) =
        .ok (false, fileOpen Unit false) :=
  ⟨fileAt_fileOpen Unit false firstFile, room_fileDisk _ _, rfl⟩

/-- If the call fails it changes nothing, if and only if it is not the case that the file is open
for writing, the request starts in the file and runs past the largest size, and its first chunk does
not. -/
theorem filewrite_failure {e : Env} {f : Fin NFILE} {ip : Ip} {n off : ℕ} {c : List UInt8}
    {s s' : Sys P} (h : FileAt e.sb f ip n false c off s) {src : List UInt8} {r : Bool}
    (hrun : filewrite e f src s = .ok (r, s')) :
    (r = false →
      contents s'.ic.disk (getDinode e.sb s'.ic.disk n) =
          contents s.ic.disk (getDinode e.sb s.ic.disk n) ∧
        (getDinode e.sb s'.ic.disk n).size = (getDinode e.sb s.ic.disk n).size ∧
        (s'.ftable f).off = (s.ftable f).off) ↔
      ¬ ((s.ftable f).writable = true ∧ off ≤ (getDinode e.sb s.ic.disk n).size ∧
        off + min src.length writeMax ≤ MAXFILE * BSIZE ∧ MAXFILE * BSIZE < off + src.length) := by
  rw [h.size_eq]
  constructor
  · rintro hkeep ⟨hwritable, hoff, hfirst, hbig⟩
    have hfits : off + writeMax ≤ MAXFILE * BSIZE := by omega
    obtain ⟨hr, h'⟩ := (h.filewrite_refused hwritable hoff (by omega) hbig).of_ok hrun
    have hoff' := (hkeep hr).2.2
    have hpos := writeMax_pos
    rw [h'.off_eq, h.off_eq, wholeChunks_of_le hfits] at hoff'
    omega
  · rintro hcond rfl
    suffices h' : FileAt e.sb f ip n false c off s' by
      refine ⟨by rw [h'.contents_eq, h.contents_eq], by rw [h'.size_eq], ?_⟩
      rw [h'.off_eq, h.off_eq]
    cases hwritable : (s.ftable f).writable with
    | false =>
      have hspec : Wp (filewrite (P := P) e f src) s (fun r t => r = false ∧ t = s)
          fun _ => False := by
        unfold filewrite
        rw [Wp.bind_iff, Wp.get_iff, if_pos hwritable]
        exact ⟨rfl, rfl⟩
      rw [(hspec.of_ok hrun).2]
      exact h
    | true =>
      by_cases hsrc : src = []
      · -- the empty request does not fail
        subst hsrc
        have hspec : Wp (filewrite (P := P) e f []) s (fun r t => r = true) fun _ => False := by
          unfold filewrite
          rw [Wp.bind_iff, Wp.get_iff, if_neg (by rw [hwritable]; decide), h.type]
          rfl
        cases hspec.of_ok hrun
      by_cases hrej : c.length < off ∨ MAXFILE * BSIZE < off + min src.length writeMax
      · exact ((h.filewrite_rejected hsrc hrej).of_ok hrun).2
      · -- the request fits, and does not fail either
        have hfits : off + src.length ≤ MAXFILE * BSIZE := by
          by_contra hbig
          exact hcond ⟨hwritable, by omega, by omega, by omega⟩
        cases ((h.filewrite hwritable (by omega) hfits).of_ok hrun).1

theorem filewrite_failure_past_end :
    let s := { fileOpen Unit true with ftable := fun _ => ⟨.inode, 1, true, true, 0, firstIp, 9⟩ }
    ∃ s', filewrite ⟨wideSb, fun _ => none⟩ firstFile [7] s = .ok (false, s') ∧
      contents s'.ic.disk (getDinode wideSb s'.ic.disk 2) =
        contents s.ic.disk (getDinode wideSb s.ic.disk 2) ∧
      (getDinode wideSb s'.ic.disk 2).size = (getDinode wideSb s.ic.disk 2).size ∧
      (s'.ftable firstFile).off = (s.ftable firstFile).off := by
  intro s
  have h₀ := fileAt_fileOpen Unit true firstFile
  have h : FileAt wideSb firstFile firstIp 2 false [] 9 s :=
    ⟨h₀.layout, h₀.sound, rfl, rfl, rfl, by decide, h₀.ref, h₀.lock, h₀.inum,
      h₀.lt, h₀.valid, h₀.sync,
      h₀.file, h₀.contents_eq⟩
  obtain ⟨r, s', hrun, rfl, -⟩ := (FileAt.filewrite_rejected (e := ⟨wideSb, fun _ => none⟩) h
    (List.cons_ne_nil 7 []) (.inl (by decide))).exists_ok fun _ => id
  exact ⟨s', hrun, (filewrite_failure (e := ⟨wideSb, fun _ => none⟩) h hrun).mpr
    (fun hcond => absurd hcond.2.2.2 (by decide)) rfl⟩

/-- The file has 70144 bytes and its end is at the offset. Of 2000 further bytes the first 1536 are
written, which fills the largest file; the call then fails. -/
theorem filewrite_partial :
    ∃ (s s' : Sys Unit) (c : List UInt8), FileAt wideSb firstFile firstIp 2 false c 70144 s ∧
      filewrite ⟨wideSb, fun _ => none⟩ firstFile (List.replicate 2000 7) s = .ok (false, s') ∧
      (s'.ftable firstFile).off = (s.ftable firstFile).off + 1536 ∧
      (getDinode wideSb s'.ic.disk 2).size = (getDinode wideSb s.ic.disk 2).size + 1536 := by
  set e : Env := ⟨wideSb, fun _ => none⟩
  have hlarge : MAXFILE * BSIZE = 71680 := by decide
  have hchunk : writeMax = 1536 := by decide
  obtain ⟨src, hsrc⟩ : ∃ src, src = List.replicate 2000 (7 : UInt8) := ⟨_, rfl⟩
  have hlen : src.length = 2000 := by rw [hsrc, List.length_replicate]
  obtain ⟨off, hoff⟩ : ∃ off, off = 70144 := ⟨_, rfl⟩
  obtain ⟨bytes, hbytes⟩ : ∃ bytes : List UInt8, bytes.length = off :=
    ⟨List.replicate off 7, List.length_replicate⟩
  -- the file as a write of its bytes leaves it
  have h₀ := fileAt_fileOpen Unit true firstFile
  have hfits : 0 + bytes.length ≤ MAXFILE * BSIZE := by omega
  obtain ⟨⟨r, ip'⟩, d, -, -, hw, hroom⟩ :=
    (writei_room (e := e) h₀.layout h₀.sound h₀.lt h₀.type_ne.1
    h₀.type_ne.2 (h₀.not_rejected (Nat.zero_le _) hfits)).exists_ok
    fun err hout => absurd hout.2 (Nat.not_lt.mpr (room_fileDisk _ _))
  have hsize : (getDinode wideSb d 2).size = off := by
    rw [hw.record, hw.head, h₀.size_eq, hbytes]
    exact (Nat.max_eq_right (Nat.zero_le _)).trans (Nat.zero_add off)
  have hle : off ≤ (contents d (getDinode wideSb d 2)).length := by rw [contents_length, hsize]
  set s : Sys Unit := { fileOpen Unit true with
    ic := ⟨d, (fileOpen Unit true).ic.icache⟩
    ftable := fun _ => ⟨.inode, 1, true, true, 0, firstIp, off⟩ }
  have h : FileAt wideSb firstFile firstIp 2 false (contents d (getDinode wideSb d 2)) off s := by
    refine ⟨h₀.layout, hw.sound, rfl, rfl, rfl, by omega, h₀.ref, rfl, rfl, h₀.lt, nofun, nofun, ?_,
      rfl⟩
    rw [hw.record, hw.head]
    exact h₀.file
  have hroom' : Room wideSb s.ic.disk 2 off writeMax := by
    have := hroom writeMax (room_fileDisk _ _)
    rwa [hbytes, Nat.zero_add] at this
  have hwhole : wholeChunks off = writeMax := by
    rw [hoff]
    decide
  have hbig : MAXFILE * BSIZE < off + src.length := by omega
  obtain ⟨r, s', hrun, rfl, h'⟩ := (FileAt.filewrite_refused (e := e) h rfl hle (by omega)
    hbig).exists_ok fun err herr => herr.2 (hwhole ▸ hroom')
  rw [hwhole] at h'
  refine ⟨s, s', _, by rwa [hoff] at h, by rwa [hsrc] at hrun,
    by rw [h'.off_eq, h.off_eq, hchunk], ?_⟩
  have htake : (src.take writeMax).length = writeMax := by
    rw [List.length_take]
    omega
  rw [h'.size_eq, h.size_eq, overwrite_length hle, htake, contents_length, hsize, hchunk]
  omega

end Xv6.Fs
