import CilEdit.Proofs.Directories
import CilEdit.Proofs.Pieces
import CilEdit.Session.Basic

namespace CilEdit.Image

open Reader

variable {i mid next : Input} {data : Bytes} {m : Module}

theorem cuts_byte {b : UInt8} (h : byte i = (.ok b, next)) : Cuts Cut.byte i [.plain [b]] next where
  run := by
    rw [Cut.byte, Step.bind_ok h]
    rfl
  rest := byte_eq_ok h
  shaped := List.forall_mem_singleton.mpr trivial

theorem saves_readSignature : Saves readSignature Cut.signature writeSignature := by
  intro i s next h
  obtain ⟨flag, i₁, hflag, h⟩ := Reader.bind_eq_ok h
  by_cases hlarge : flag.toNat > 1
  · rw [if_pos hlarge] at h
    cases h
  rw [if_neg hlarge] at h
  obtain ⟨count, i₂, hcount, h⟩ := Reader.bind_eq_ok h
  obtain ⟨_, i₃, hrequire, h⟩ := Reader.bind_eq_ok h
  obtain ⟨params, i₄, hparams, h⟩ := Reader.bind_eq_ok h
  obtain ⟨returnType, i₅, hreturnType, hpure⟩ := Reader.bind_eq_ok h
  cases hpure
  cases require_eq_ok hrequire
  obtain ⟨hlength, paramPieces, hparamCuts, chunks, hchunks, hflatten⟩ :=
    exists_cuts_times saves_text hparams
  obtain ⟨hlt, groups, hcountCuts, hgroups⟩ :=
    exists_cuts_counted (Cut.rows Cut.text) hcount hparamCuts
  obtain ⟨returnPieces, hreturnCuts, hreturnSaved⟩ := saves_text _ _ _ hreturnType
  refine ⟨_, (cuts_byte hflag).cons (hcountCuts.cons hreturnCuts.last), ?_⟩
  have hthis : UInt8.ofNat (flag == 1).toNat = flag := by
    have hcases : flag.toNat = 0 ∨ flag.toNat = 1 := by omega
    rcases hcases with hzero | hone
    · cases UInt8.toNat_inj.mp (hzero.trans UInt8.toNat_zero.symm)
      rfl
    · cases UInt8.toNat_inj.mp (hone.trans UInt8.toNat_one.symm)
      rfl
  rw [writeSignature, hlength, if_pos hlt, bind_of_ok hchunks, bind_of_ok hreturnSaved, hthis,
    hgroups, hflatten, List.flatMap_append, List.flatMap_append, List.flatMap_singleton,
    List.flatMap_cons, List.append_assoc]
  rfl

theorem readRow_eq_ok {table row : Nat} {seen : List Nat}
    (h : readRow table seen i = (.ok row, next)) :
    nat 4 i = (.ok row, next) ∧ (Token.ofParts table row).row = row := by
  obtain ⟨n, mid, hn, h⟩ := Reader.bind_eq_ok h
  split at h
  · cases h
  · rename_i hvalid
    cases h
    rw [not_or, not_or, Nat.not_lt] at hvalid
    refine ⟨hn, ?_⟩
    rw [Token.row_ofParts]
    exact Nat.mod_eq_of_lt (Nat.lt_succ_of_le hvalid.2.1)

/-- A number that is kept in 32 bits is written as it was. -/
theorem exists_cuts_nat {n : Nat} (h : nat 4 i = (.ok n, next)) :
    ∃ ps, Cuts (Cut.block 4) i ps next ∧ Bytes.ofNat 4 n = ps.flatMap Piece.saved ∧
      (UInt32.ofNat n).toNat = n := by
  obtain ⟨hlt, block, htake, -, -, hblock⟩ := nat_eq_ok h
  refine ⟨_, cuts_block htake, ?_, UInt32.toNat_ofNat_of_lt' hlt⟩
  rw [List.flatMap_singleton]
  exact hblock

theorem saves_readField (seen : List Nat) :
    Saves (readField seen) Cut.field fun x => writeField x.1 := by
  rintro i ⟨f, rows⟩ next h
  obtain ⟨row, i₁, hrow, h⟩ := Reader.bind_eq_ok h
  obtain ⟨flags, i₂, hflags, h⟩ := Reader.bind_eq_ok h
  obtain ⟨name, i₃, hname, h⟩ := Reader.bind_eq_ok h
  obtain ⟨type, i₄, htype, hpure⟩ := Reader.bind_eq_ok h
  cases hpure
  obtain ⟨hrow, htoken⟩ := readRow_eq_ok hrow
  obtain ⟨rowPieces, hrowCuts, hrowSaved, -⟩ := exists_cuts_nat hrow
  obtain ⟨flagPieces, hflagCuts, hflagsSaved, hflagBits⟩ := exists_cuts_nat hflags
  obtain ⟨namePieces, hnameCuts, hnameSaved⟩ := saves_text _ _ _ hname
  obtain ⟨typePieces, htypeCuts, htypeSaved⟩ := saves_text _ _ _ htype
  refine ⟨_, hrowCuts.cons (hflagCuts.cons (hnameCuts.cons htypeCuts.last)), ?_⟩
  dsimp only
  rw [writeField, bind_of_ok hnameSaved, bind_of_ok htypeSaved]
  simp only [htoken, hflagBits, hrowSaved, hflagsSaved, List.flatMap_append]
  rfl

/-- The flags of a method that have a meaning are written as they were, the others are dropped. -/
theorem exists_cuts_flags {n : Nat} (h : nat 2 i = (.ok n, next)) :
    ∃ ps, Cuts Cut.flags i ps next ∧
      Bytes.ofNat 2 (MethodFlags.ofBits (UInt16.ofNat n)).bits.toNat
        = ps.flatMap Piece.saved := by
  obtain ⟨hlt, block, -, -, hrest, hblock⟩ := nat_eq_ok h
  refine ⟨[.flags (UInt16.ofNat n)], ⟨?_, ?_, List.forall_mem_singleton.mpr trivial⟩, ?_⟩
  · rw [Cut.flags, Step.bind_ok h]
    rfl
  · rw [hrest, List.flatMap_singleton, Piece.bytes, UInt16.toNat_ofNat_of_lt' hlt, hblock]
  · rw [List.flatMap_singleton]
    rfl

theorem exists_cuts_body {id : BodyId} {found : Option (Bytes × Body)}
    (h : readBody id i = (.ok found, next)) :
    ((found.map Prod.fst).getD []).length < UInt32.size ∧ ∃ ps, Cuts Cut.body i ps next ∧
      Bytes.ofNat 4 ((found.map Prod.fst).getD []).length ++ (found.map Prod.fst).getD []
        = ps.flatMap Piece.saved := by
  obtain ⟨length, mid, hlength, h⟩ := Reader.bind_eq_ok h
  have hread : ∃ block, take length mid = (.ok block, next) ∧
      (found.map Prod.fst).getD [] = block := by
    split at h
    · rename_i hzero
      cases h
      refine ⟨[], ?_, rfl⟩
      rw [hzero, take, List.take_zero, List.length_nil, if_pos rfl, Input.advance_zero]
    · obtain ⟨raw, last, hraw, h⟩ := Reader.bind_eq_ok h
      obtain ⟨b, last', hdecode, hpure⟩ := Reader.bind_eq_ok h
      obtain rfl : last = last' := congrArg Prod.snd hdecode
      cases hpure
      exact ⟨raw, hraw, rfl⟩
  obtain ⟨block, htake, hblock⟩ := hread
  obtain ⟨hlt, stored, hcuts, hstored⟩ :=
    exists_cuts_numbered Cut.block hlength (cuts_block htake)
  rw [hblock, (take_eq_ok htake).1]
  refine ⟨hlt, _, hcuts, ?_⟩
  rw [List.flatMap_cons, List.flatMap_singleton, hstored]
  rfl

theorem saves_readMethod (m : Module) (origin : Nat) (seen : List Nat) :
    Saves (readMethod origin seen) Cut.method fun x => writeMethod m x.1 := by
  rintro i ⟨x, rows⟩ next h
  obtain ⟨row, i₁, hrow, h⟩ := Reader.bind_eq_ok h
  obtain ⟨flags, i₂, hflags, h⟩ := Reader.bind_eq_ok h
  obtain ⟨name, i₃, hname, h⟩ := Reader.bind_eq_ok h
  obtain ⟨signature, i₄, hsignature, h⟩ := Reader.bind_eq_ok h
  obtain ⟨found, i₅, hbody, hpure⟩ := Reader.bind_eq_ok h
  cases hpure
  obtain ⟨hrow, htoken⟩ := readRow_eq_ok hrow
  obtain ⟨rowPieces, hrowCuts, hrowSaved, -⟩ := exists_cuts_nat hrow
  obtain ⟨flagPieces, hflagCuts, hflagsSaved⟩ := exists_cuts_flags hflags
  obtain ⟨namePieces, hnameCuts, hnameSaved⟩ := saves_text _ _ _ hname
  obtain ⟨signaturePieces, hsignatureCuts, hsignatureSaved⟩ := saves_readSignature _ _ _ hsignature
  obtain ⟨hlt, bodyPieces, hbodyCuts, hbodySaved⟩ := exists_cuts_body hbody
  refine ⟨_, hrowCuts.cons (hflagCuts.cons (hnameCuts.cons (hsignatureCuts.cons hbodyCuts.last))),
    ?_⟩
  dsimp only
  rw [writeMethod, bind_of_ok hnameSaved,
    bind_of_ok hsignatureSaved,
    bind_of_ok (storedBody_found m ⟨_, _, name, signature, none, none⟩ found), if_pos hlt]
  simp only [htoken, hrowSaved, hflagsSaved, hbodySaved, List.flatMap_append]
  rfl

theorem saves_readType (m : Module) (origin : Nat) (seen : Seen) :
    Saves (readType origin seen) Cut.type fun x => writeType m x.1 := by
  rintro i ⟨t, seen'⟩ next h
  obtain ⟨flags, i₁, hflags, h⟩ := Reader.bind_eq_ok h
  obtain ⟨name, i₂, hname, h⟩ := Reader.bind_eq_ok h
  obtain ⟨⟨fields, fieldRows⟩, i₃, hfields, h⟩ := Reader.bind_eq_ok h
  obtain ⟨⟨methods, methodRows⟩, i₄, hmethods, hpure⟩ := Reader.bind_eq_ok h
  cases hpure
  obtain ⟨flagPieces, hflagCuts, hflagsSaved, hflagBits⟩ := exists_cuts_nat hflags
  obtain ⟨namePieces, hnameCuts, hnameSaved⟩ := saves_text _ _ _ hname
  obtain ⟨fieldPieces, hfieldCuts, hfieldsSaved⟩ :=
    saves_readTable saves_readField _ _ _ _ hfields
  obtain ⟨methodPieces, hmethodCuts, hmethodsSaved⟩ :=
    saves_readTable (saves_readMethod m origin) _ _ _ _ hmethods
  refine ⟨_, hflagCuts.cons (hnameCuts.cons (hfieldCuts.cons hmethodCuts.last)), ?_⟩
  dsimp only
  rw [writeType, bind_of_ok hnameSaved,
    bind_of_ok hfieldsSaved, bind_of_ok hmethodsSaved]
  simp only [hflagBits, hflagsSaved, List.flatMap_append]
  rfl

theorem saves_readTypeRef (count : Nat) :
    Saves (readTypeRef count) Cut.typeRef fun x => writeTypeRef x.1 := by
  rintro i ⟨r, count'⟩ next h
  obtain ⟨scope, i₁, hscope, h⟩ := Reader.bind_eq_ok h
  obtain ⟨name, i₂, hname, hpure⟩ := Reader.bind_eq_ok h
  cases hpure
  obtain ⟨scopePieces, hscopeCuts, hscopeSaved⟩ := saves_text _ _ _ hscope
  obtain ⟨namePieces, hnameCuts, hnameSaved⟩ := saves_text _ _ _ hname
  refine ⟨_, hscopeCuts.cons hnameCuts.last, ?_⟩
  dsimp only
  rw [writeTypeRef, bind_of_ok hscopeSaved, bind_of_ok hnameSaved,
    List.flatMap_append]
  rfl

theorem exists_cuts_kind {kind : UInt8} {member : MemberKind}
    (h : readMemberKind kind i = (.ok member, next)) :
    kindByte member = kind ∧ ∃ ps, Cuts (if kind = 0 then Cut.signature else Cut.text) i ps next ∧
      writeMemberKind member = .ok (ps.flatMap Piece.saved) := by
  rw [readMemberKind] at h
  by_cases hzero : kind = 0
  · rw [if_pos hzero] at h
    obtain ⟨signature, mid, hsignature, hpure⟩ := Reader.bind_eq_ok h
    cases hpure
    rw [if_pos hzero]
    exact ⟨hzero.symm, saves_readSignature _ _ _ hsignature⟩
  · rw [if_neg hzero] at h
    by_cases hone : kind = 1
    · rw [if_pos hone] at h
      obtain ⟨type, mid, htype, hpure⟩ := Reader.bind_eq_ok h
      cases hpure
      rw [if_neg hzero]
      exact ⟨hone.symm, saves_text _ _ _ htype⟩
    · rw [if_neg hone] at h
      cases h

theorem saves_readMemberRef (typeRefs count : Nat) :
    Saves (readMemberRef typeRefs count) Cut.memberRef fun x => writeMemberRef x.1 := by
  rintro i ⟨r, count'⟩ next h
  obtain ⟨kind, i₁, hkind, h⟩ := Reader.bind_eq_ok h
  obtain ⟨parent, i₂, hparent, h⟩ := Reader.bind_eq_ok h
  dsimp only at h
  split at h
  · cases h
  obtain ⟨name, i₃, hname, h⟩ := Reader.bind_eq_ok h
  obtain ⟨member, i₄, hmember, hpure⟩ := Reader.bind_eq_ok h
  cases hpure
  obtain ⟨parentPieces, hparentCuts, hparentSaved, hparentBits⟩ := exists_cuts_nat hparent
  obtain ⟨namePieces, hnameCuts, hnameSaved⟩ := saves_text _ _ _ hname
  obtain ⟨hkindByte, memberPieces, hmemberCuts, hmemberSaved⟩ := exists_cuts_kind hmember
  have hcuts := hparentCuts.cons (hnameCuts.cons hmemberCuts.last)
  refine ⟨.plain [kind] :: (parentPieces ++ (namePieces ++ memberPieces)), ⟨?_, ?_, ?_⟩, ?_⟩
  · rw [Cut.memberRef, Step.bind_ok hkind, Step.bind_ok hcuts.run]
    rfl
  · rw [byte_eq_ok hkind, hcuts.rest]
    rfl
  · exact List.forall_mem_cons.mpr ⟨trivial, hcuts.shaped⟩
  · dsimp only
    rw [writeMemberRef, bind_of_ok hnameSaved,
      bind_of_ok hmemberSaved]
    simp only [hkindByte, hparentBits, hparentSaved, List.flatMap_cons, List.flatMap_append]
    rfl

theorem saves_readPreamble : Saves readPreamble Cut.preamble fun _ => .ok preamble := by
  rintro i ⟨⟩ next h
  obtain ⟨stored, i₁, hmark, h⟩ := Reader.bind_eq_ok h
  by_cases hwrong : stored ≠ mark
  · rw [if_pos hwrong] at h
    cases h
  rw [if_neg hwrong] at h
  cases not_not.mp hwrong
  obtain ⟨number, i₂, hversion, h⟩ := Reader.bind_eq_ok h
  by_cases hother : number ≠ version
  · rw [if_pos hother] at h
    cases h
  rw [if_neg hother] at h
  cases not_not.mp hother
  obtain ⟨reserved, i₃, hreserved, hpure⟩ := Reader.bind_eq_ok h
  cases hpure
  obtain ⟨-, versionBlock, hversionTake, -, -, hversionBlock⟩ := nat_eq_ok hversion
  obtain ⟨hlt, block, -, -, hrest, hblock⟩ := nat_eq_ok hreserved
  have hreservedCuts : Cuts Cut.reserved i₂ [.reserved (UInt16.ofNat reserved)] next := by
    constructor
    · rw [Cut.reserved, Step.bind_ok hreserved]
      rfl
    · rw [hrest, List.flatMap_singleton, Piece.bytes, UInt16.toNat_ofNat_of_lt' hlt, hblock]
    · exact List.forall_mem_singleton.mpr trivial
  refine ⟨_, (cuts_block hmark).cons ((cuts_block hversionTake).cons hreservedCuts.last), ?_⟩
  rw [← hversionBlock]
  rfl

/-- A module is read to the end of the data. -/
theorem readModule_eq_ok {origin : Nat} (h : readModule origin i = (.ok m, next)) :
    next.rest = [] ∧ ∃ ps, Cuts Cut.module i ps next ∧ write m = .ok (ps.flatMap Piece.saved) := by
  obtain ⟨_, i₁, hpreamble, h⟩ := Reader.bind_eq_ok h
  obtain ⟨name, i₂, hname, h⟩ := Reader.bind_eq_ok h
  obtain ⟨⟨types, seen⟩, i₃, htypes, h⟩ := Reader.bind_eq_ok h
  obtain ⟨⟨typeRefs, typeRefCount⟩, i₄, htypeRefs, h⟩ := Reader.bind_eq_ok h
  obtain ⟨⟨memberRefs, memberRefCount⟩, i₅, hmemberRefs, h⟩ := Reader.bind_eq_ok h
  obtain ⟨userStrings, i₆, huserStrings, h⟩ := Reader.bind_eq_ok h
  obtain ⟨left, i₇, hleft, h⟩ := Reader.bind_eq_ok h
  cases hleft
  split at h
  · cases h
  rename_i hend
  cases h
  obtain ⟨preamblePieces, hpreambleCuts, hpreambleSaved⟩ := saves_readPreamble _ _ _ hpreamble
  obtain ⟨namePieces, hnameCuts, hnameSaved⟩ := saves_text _ _ _ hname
  obtain ⟨typePieces, htypeCuts, htypesSaved⟩ :=
    saves_readTable (saves_readType ⟨name, types, typeRefs, memberRefs, userStrings⟩ origin)
      _ _ _ _ htypes
  obtain ⟨typeRefPieces, htypeRefCuts, htypeRefsSaved⟩ :=
    saves_readTable saves_readTypeRef _ _ _ _ htypeRefs
  obtain ⟨memberRefPieces, hmemberRefCuts, hmemberRefsSaved⟩ :=
    saves_readTable (saves_readMemberRef typeRefCount) _ _ _ _ hmemberRefs
  obtain ⟨stringPieces, hstringCuts, hstringsSaved⟩ := saves_readRows saves_text _ _ _ huserStrings
  refine ⟨List.length_eq_zero_iff.mp (Nat.eq_zero_of_not_pos hend), _, hpreambleCuts.cons
    (hnameCuts.cons (htypeCuts.cons (htypeRefCuts.cons (hmemberRefCuts.cons hstringCuts.last)))),
    ?_⟩
  rw [write, bind_of_ok hnameSaved, bind_of_ok htypesSaved, bind_of_ok htypeRefsSaved,
    bind_of_ok hmemberRefsSaved, bind_of_ok hstringsSaved, Except.ok.inj hpreambleSaved]
  simp only [List.flatMap_append]
  rfl

end CilEdit.Image

namespace CilEdit

open Image (Piece)

variable {origin : Nat} {data : Bytes} {m : Module}

/-- An image that can be read is cut into pieces, and is saved piece by piece. -/
theorem Image.exists_pieces_of_read (h : Image.read origin data = .ok m) :
    ∃ ps, Image.pieces data = .ok ps ∧ ps.flatMap Piece.bytes = data ∧
      (∀ p ∈ ps, p.Shaped) ∧ m.toBytes = .ok (ps.flatMap Piece.saved) := by
  have hread : readModule origin (.ofBytes data) = (.ok m, (readModule origin (.ofBytes data)).2) :=
    Prod.ext h rfl
  obtain ⟨hend, ps, hcuts, hsaved⟩ := readModule_eq_ok hread
  refine ⟨ps, congrArg Prod.fst hcuts.run, ?_, hcuts.shaped, hsaved⟩
  have hrest := hcuts.rest
  rw [hend, List.append_nil] at hrest
  exact hrest.symm

namespace Session

variable {d : Directory} {here target : String} {references : List String} {s : Session}

/-- What a session leaves of its file and reports of it, if it keeps all of the file. -/
structure Keeps (s : Session) (data : Bytes) : Prop where
  dryRun : ∃ report, s.dryRun = .ok report ∧ report.after = report.before
  commit : ∀ d d' : Directory, Directory.write s.target data d = (.ok (), d') →
    ∃ report, s.commit d = (.ok report, d') ∧ report.after = report.before

/-- A session opens with the module in its target and the reference modules beside it. -/
theorem start_eq_ok_iff : start origin d here target references = .ok s ↔
    ∃ data m opened, d.read target = .ok data ∧ Image.read origin data = .ok m ∧
      References.open (origin + 1) d (Path.folder here target) references = .ok opened ∧
        s = ⟨target, m, opened, Sha1.hex data, []⟩ := by
  constructor
  · intro h
    rw [start] at h
    split at h
    · cases h
    · obtain ⟨data, hdata, h⟩ := bind_eq_ok.mp h
      obtain ⟨m, hm, h⟩ := bind_eq_ok.mp h
      obtain ⟨opened, hopened, h⟩ := bind_eq_ok.mp h
      exact ⟨data, m, opened, hdata, hm, hopened, (Except.ok.inj h).symm⟩
  · rintro ⟨data, m, opened, hdata, hm, hopened, rfl⟩
    rw [start, Directory.isFile_of_read hdata, if_neg (by decide), bind_of_ok hdata, bind_of_ok hm,
      bind_of_ok hopened]
    rfl

/-- A commit writes the encoded module over the target and reports it. -/
theorem commit_eq_ok_iff {d' : Directory} {report : Report} :
    s.commit d = (.ok report, d') ↔ ∃ stored, s.module.toBytes = .ok stored ∧
      Directory.write s.target stored d = (.ok (), d') ∧ report = s.report stored true := by
  rw [commit, Step.ofExcept_bind_eq_ok_iff]
  refine exists_congr fun stored => and_congr_right fun _ => ?_
  constructor
  · intro h
    obtain ⟨_, d₁, hwritten, hreturn⟩ := Step.bind_eq_ok.mp h
    cases hreturn
    exact ⟨hwritten, rfl⟩
  · rintro ⟨hwritten, rfl⟩
    rw [Step.bind_ok hwritten]
    rfl

/-- A commit that fails leaves every file as it is: the write is its last step that can fail. -/
theorem atomic_commit (s : Session) : s.commit.Atomic :=
  (Step.still_ofExcept _).bind_atomic fun _ =>
    (Directory.atomic_write _ _).bind_pure _

/-- A dry run reports the encoded module and fails only if the module cannot be encoded. -/
theorem dryRun_eq_ok_iff {report : Report} : s.dryRun = .ok report ↔
    ∃ stored, s.module.toBytes = .ok stored ∧ report = s.report stored false := by
  constructor
  · intro h
    obtain ⟨stored, hstored, hreturn⟩ := bind_eq_ok.mp h
    exact ⟨stored, hstored, (Except.ok.inj hreturn).symm⟩
  · rintro ⟨stored, hstored, rfl⟩
    rw [dryRun, bind_of_ok hstored]
    rfl

theorem keeps_of_toBytes (hbefore : s.before = Sha1.hex data)
    (hbytes : s.module.toBytes = .ok data) : s.Keeps data where
  dryRun := ⟨_, dryRun_eq_ok_iff.mpr ⟨data, hbytes, rfl⟩, hbefore.symm⟩
  commit _ _ hwrite := ⟨_, commit_eq_ok_iff.mpr ⟨data, hbytes, hwrite, rfl⟩, hbefore.symm⟩

end Session

namespace Module

/-- Saving what was read gives the same pieces: the reserved word is set to zero, lengths are put in
their shortest form, and flags of methods that have no meaning are dropped. If this changes nothing,
a session that applies nothing keeps the file. -/
theorem toBytes_of_read (h : Image.read origin data = .ok m) :
    ∃ ps, Image.pieces data = .ok ps ∧ ps.flatMap Piece.bytes = data ∧
      m.toBytes = .ok (ps.flatMap Piece.saved) ∧
      (∀ p ∈ ps, p.Canonical → p.Known → p.saved = p.bytes) ∧
      ((∀ p ∈ ps, p.Canonical ∧ p.Known) → m.toBytes = .ok data ∧
        ∀ (d : Directory) (here target : String) (references : List String) (s : Session),
          d.read target = .ok data → Session.start origin d here target references = .ok s →
            s.Keeps data) := by
  obtain ⟨ps, hpieces, hbytes, hshaped, hsaved⟩ := Image.exists_pieces_of_read h
  have hkept : ∀ p ∈ ps, p.Canonical → p.Known → p.saved = p.bytes := fun p hp =>
    Piece.saved_eq_bytes (hshaped p hp)
  refine ⟨ps, hpieces, hbytes, hsaved, hkept, ?_⟩
  intro hall
  have hsame : m.toBytes = .ok data := by
    rw [hsaved, List.flatMap_congr fun p hp => hkept p hp (hall p hp).1 (hall p hp).2, hbytes]
  refine ⟨hsame, ?_⟩
  intro d here target references s hdata hstart
  obtain ⟨found, read, opened, hfound, hread, -, rfl⟩ := Session.start_eq_ok_iff.mp hstart
  cases Except.ok.inj (hdata.symm.trans hfound)
  cases Except.ok.inj (h.symm.trans hread)
  exact Session.keeps_of_toBytes rfl hsame

/-- The image of a type with one method, whose flags are stored in the given bytes. -/
def imageWithFlags (low high : UInt8) : Bytes :=
  [0x43, 0x49, 0x4C, 0x4D, 1, 0, 0, 0, 1, 77, 1, 0, 0, 0, 0, 0, 0, 0, 1, 84, 0, 0, 0, 0,
    1, 0, 0, 0, 1, 0, 0, 0, low, high, 1, 102, 0, 0, 1, 86, 0, 0, 0, 0, 0, 0, 0, 0, 0, 0, 0, 0,
    0, 0, 0, 0]

def piecesWithFlags (flags : UInt16) : List Piece :=
  [.plain [0x43, 0x49, 0x4C, 0x4D], .plain [1, 0], .reserved 0, .length [1], .plain [77],
    .plain [1, 0, 0, 0], .plain [0, 0, 0, 0], .length [1], .plain [84], .plain [0, 0, 0, 0],
    .plain [1, 0, 0, 0], .plain [1, 0, 0, 0], .flags flags, .length [1], .plain [102],
    .plain [0], .length [0], .length [1], .plain [86], .plain [0, 0, 0, 0], .plain [],
    .plain [0, 0, 0, 0], .plain [0, 0, 0, 0], .plain [0, 0, 0, 0]]

def folderWithFlags (low high : UInt8) : Directory :=
  ⟨[(["a"], .file (imageWithFlags low high))]⟩

theorem toBytes_of_read_staticMethod : ∃ m, Image.read 1 (imageWithFlags 0x10 0) = .ok m ∧
    m.toBytes = .ok (imageWithFlags 0x10 0) ∧
    ∃ s report, Session.start 1 (folderWithFlags 0x10 0) "" "a" [] = .ok s ∧
      s.commit (folderWithFlags 0x10 0) = (.ok report, folderWithFlags 0x10 0) ∧
      report.after = report.before := by
  obtain ⟨m, hm⟩ : ∃ m, Image.read 1 (imageWithFlags 0x10 0) = .ok m :=
    exists_of_isOk (by decide +kernel)
  have hpieces : Image.pieces (imageWithFlags 0x10 0) = .ok (piecesWithFlags 0x10) := by
    decide +kernel
  obtain ⟨ps, hps, -, -, -, hsame⟩ := toBytes_of_read hm
  cases Except.ok.inj (hpieces.symm.trans hps)
  obtain ⟨hbytes, hkeeps⟩ := hsame (by decide +kernel)
  have hdata : (folderWithFlags 0x10 0).read "a" = .ok (imageWithFlags 0x10 0) :=
    Directory.read_single nofun
  obtain ⟨s, hs, htarget⟩ : ∃ s, Session.start 1 (folderWithFlags 0x10 0) "" "a" [] = .ok s ∧
      s.target = "a" :=
    ⟨_, Session.start_eq_ok_iff.mpr ⟨_, m, [], hdata, hm, rfl, rfl⟩, rfl⟩
  have hwrite : Directory.write "a" (imageWithFlags 0x10 0) (folderWithFlags 0x10 0)
      = (.ok (), folderWithFlags 0x10 0) := Directory.write_single _ _
  rw [← htarget] at hwrite
  obtain ⟨report, hcommit, hreport⟩ := (hkeeps _ _ _ _ _ hdata hs).commit _ _ hwrite
  exact ⟨m, hm, hbytes, s, report, hs, hcommit, hreport⟩

/-- A flag without a meaning is lost, and nothing tells of it. -/
theorem toBytes_of_read_unknownFlag : ¬ ∀ (origin : Nat) (data : Bytes) (m : Module)
    (ps : List Piece), Image.read origin data = .ok m → Image.pieces data = .ok ps →
      (∀ p ∈ ps, p.Canonical) → m.toBytes = .ok data := by
  intro hclaim
  obtain ⟨m, hm⟩ : ∃ m, Image.read 1 (imageWithFlags 0 0x20) = .ok m :=
    exists_of_isOk (by decide +kernel)
  have hpieces : Image.pieces (imageWithFlags 0 0x20) = .ok (piecesWithFlags 0x2000) := by
    decide +kernel
  obtain ⟨ps, hps, -, -, hsaved⟩ := Image.exists_pieces_of_read hm
  cases Except.ok.inj (hpieces.symm.trans hps)
  have hsame := hsaved.symm.trans (hclaim 1 _ m _ hm hpieces (by decide +kernel))
  exact absurd (Except.ok.inj hsame) (by decide +kernel)

end Module

end CilEdit
