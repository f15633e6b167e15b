import EuhatExpert.Common.AsymmetricRoundTrip
import EuhatExpert.Common.JyTcpEndpoint
import EuhatExpert.Dbop.DbOpIni

/-!
# FileMan/GenCert — a certificate from its primes to the listeners that use it

`fmGenAndWriteCert` multiplies two primes, inverts a fixed exponent modulo the product of their
predecessors, and writes the three numbers to the ini table as hexadecimal text.  Every `JyTcpListener` made
afterwards reads them back.  `loaded_of_run`: whatever else is written in between, it has the two halves of
one working key.
-/

namespace EuhatExpert

open Machinery

namespace JyBigNum

/-! ## The tables of `getE`, 32 bytes a line -/

def p256 : List ℕ := [
  0xC3F1DEC43F8F1DE97D04B1C7D7C5F85D9F2D866CBEED54473485FCB9C048EDA7]

def p512 : List ℕ := [
  0xC337E0297947A5F6B2605D0048000E65470189DF7B91F82283514BB27216DBF4,
  0x3ECDBF28F9B7EDF0065BC051B6129240869498C7E0FBC6183DE0700FB23749EF]

def p1024 : List ℕ := [
  0xCC8BDAD5C48A724651B793E101F2122FFF86FC60AA1549CAA8EE69CD0C3FA781,
  0x00C991E6F2055840242612F9DB2AC1569672388DCC16A1CF901C8DE5207F8100,
  0x3C7BF3ED19F6C5BC8C0177C3B0D4CF052E050A610CE670E369837952F8CE8C5B,
  0x2C8FDB46E0168BC776E305097E80A4ED8B1D11A9D5768BAB6AC7FFD5117FD947]

def p2048 : List ℕ := [
  0xF6DC5830B56338820A13BE9466132A6B7A09FD2EC04AE00D7830080985586456,
  0xDBC74EC2001D87260FBC29660DEDB71CA5E332D1C5B6FCE5C9087C071DDFD9DC,
  0xB8AE6188BCDE4DC84ED1D54B6E9A458EF14E8CBBDDBC1AA758B51DCEA198B438,
  0xD2AD4262DB734385A42777BA9819AEE4C8F55B4EA692A4B6EACF5B26F657B686,
  0xE32C37E12ACA96B2F0526B6F2F43FC31D4E34F6A0626FE6F117FCDBA031EBBC1,
  0x4963E2C5FE2D6C4BD127F25521F9B8E75717A83C16A73941A0EC6E857BF5ADC1,
  0xA5DC72A97A785304E9516DC424FC7CFA4CFF52FA87E94BBD5068FC21E2138E49,
  0x9435C695D54750E7113138095EFB08C3DDF771F7760D83B0B114F98D91951747]

/-- The number a table spells. -/
def spelled (table : List ℕ) : ℕ := table.foldl (fun n row => n * 256 ^ 32 + row) 0

/-- `getE`; there is no table for other lengths. -/
def getE : ℕ → Option ℕ
  | 256 => some (spelled p256)
  | 512 => some (spelled p512)
  | 1024 => some (spelled p1024)
  | 2048 => some (spelled p2048)
  | _ => none

theorem getE_lt {bits e : ℕ} (h : getE bits = some e) : e < 256 ^ 256 := by
  have hall : ∀ table ∈ [p256, p512, p1024, p2048], spelled table < 256 ^ 256 := by decide +kernel
  unfold getE at h
  split at h
  · exact Option.some.inj h ▸ hall p256 (by simp)
  · exact Option.some.inj h ▸ hall p512 (by simp)
  · exact Option.some.inj h ▸ hall p1024 (by simp)
  · exact Option.some.inj h ▸ hall p2048 (by simp)
  · cases h

/-- `modInverse` on a number of value `old`, which stays when there is no inverse. -/
def modInverse (old a n : ℕ) : ℕ := if a.gcd n = 1 then ((a.gcdA n) % n).toNat else old

/-- **What has an inverse is inverted.** -/
theorem mul_modInverse {a n : ℕ} (old : ℕ) (h : a.Coprime n) (hn : 0 < n) :
    a * modInverse old a n ≡ 1 [MOD n] := by
  have hpos : 0 ≤ (a.gcdA n) % n := Int.emod_nonneg _ (by omega)
  have hbezout : (1 : ℤ) = a * a.gcdA n + n * a.gcdB n := by
    rw [← Nat.gcd_eq_gcd_ab, h]
    rfl
  rw [modInverse, if_pos h, ← Int.natCast_modEq_iff]
  push_cast
  rw [Int.toNat_of_nonneg hpos]
  calc (a : ℤ) * (a.gcdA n % n) ≡ a * a.gcdA n [ZMOD n] := (Int.mod_modEq _ _).mul_left _
    _ ≡ a * a.gcdA n + n * a.gcdB n [ZMOD n] := (Int.modEq_add_fac_self).symm
    _ = 1 := hbezout.symm

theorem modInverse_lt {a n : ℕ} (h : a.Coprime n) (hn : 0 < n) (old : ℕ) : modInverse old a n < n := by
  have hpos : 0 ≤ (a.gcdA n) % n := Int.emod_nonneg _ (by omega)
  have hlt : (a.gcdA n) % n < n := Int.emod_lt_of_pos _ (by omega)
  rw [modInverse, if_pos h]
  omega

end JyBigNum

/-! ## Hexadecimal text in the table -/

namespace DbOpIni

variable (db : Sqlite)

/-- The bytes of a hexadecimal text. -/
def bytesOf (str : List Char) : Bytes := str.map fun c => UInt8.ofNat c.toNat

def charsOf (text : Bytes) : List Char := text.map fun b => Char.ofNat b.toNat

def readBuf (section_ keyName : Bytes) (tab : List IniRow) : Except Fault Bytes :=
  JyBigNum.hex2data (charsOf (readStr db section_ keyName [] tab))

def writeBuf (section_ keyName buf : Bytes) (tab : List IniRow) : List IniRow :=
  write db section_ keyName (bytesOf (JyBigNum.data2hex buf)) tab

theorem mem_pat_of_mem_data2hex {data : Bytes} {c : Char} (h : c ∈ JyBigNum.data2hex data) : c ∈ JyBigNum.pat := by
  obtain ⟨b, -, hc⟩ := List.mem_flatMap.mp h
  have hpat : ∀ k : Fin 16, JyBigNum.pat.getD k '0' ∈ JyBigNum.pat := by decide
  have hb := b.toNat_lt
  rw [JyBigNum.hexPair_eq] at hc
  rcases List.mem_cons.mp hc with rfl | hc
  · exact hpat ⟨b.toNat / 16, by omega⟩
  · rw [List.mem_singleton.mp hc]
    exact hpat ⟨b.toNat % 16, by omega⟩

theorem of_mem_pat {p : Char → Prop} [DecidablePred p] (h : JyBigNum.pat.all (fun c => p c) = true) {c : Char}
    (hc : c ∈ JyBigNum.pat) : p c :=
  of_decide_eq_true (List.all_eq_true.mp h c hc)

theorem charsOf_bytesOf (data : Bytes) : charsOf (bytesOf (JyBigNum.data2hex data)) = JyBigNum.data2hex data := by
  have hpat : ∀ c ∈ JyBigNum.data2hex data, Char.ofNat (UInt8.ofNat c.toNat).toNat = c := fun c hc =>
    of_mem_pat (p := fun c => Char.ofNat (UInt8.ofNat c.toNat).toNat = c) (by decide) (mem_pat_of_mem_data2hex hc)
  rw [charsOf, bytesOf, List.map_map]
  exact (List.map_congr_left hpat).trans (List.map_id _)

theorem zero_notMem_bytesOf (data : Bytes) : 0 ∉ bytesOf (JyBigNum.data2hex data) := by
  intro h0
  obtain ⟨c, hc, hc0⟩ := List.mem_map.mp h0
  exact of_mem_pat (p := fun c => UInt8.ofNat c.toNat ≠ 0) (by decide) (mem_pat_of_mem_data2hex hc) hc0

/-- The text of a buffer, as it is bound to a statement. -/
def hexText (buf : Bytes) : Text := ⟨bytesOf (JyBigNum.data2hex buf), zero_notMem_bytesOf buf⟩

/-- **A buffer is read as it was written last.** -/
theorem Holds.readBuf_eq {db : Sqlite} {calls : List IniCall} {tab : List IniRow} (h : Holds calls tab)
    {section_ key buf : Bytes} (hs : quote ∉ section_) (hk : quote ∉ key)
    (hlatest : latest calls section_ key = some (hexText buf).val) : readBuf db section_ key tab = .ok buf := by
  rw [readBuf, h.readStr_eq hs hk, hlatest, Option.getD_some, hexText, charsOf_bytesOf,
    JyBigNum.hex2data_data2hex]

theorem holds_of_run {db : Sqlite} {calls : List IniCall} {tab : List IniRow}
    (h : Run (restrict (Step db) fun _ c => Plain c) [] calls tab) : Holds calls tab :=
  h.invariant_hist (I := Holds) (fun _ _ => rfl) fun _ _ _ _ hold hstep => hold.step hstep.1 hstep.2

/-- The call writes another pair, or none. -/
def Spares (section_ key : Bytes) (c : IniCall) : Prop :=
  ∀ s k val, c = .write s k val → ¬ (s.val = section_ ∧ k.val = key)

/-- Calls that spare a pair leave what was written to it. -/
theorem latest_append {section_ key : Bytes} {after : List IniCall} (h : ∀ c ∈ after, Spares section_ key c)
    (calls : List IniCall) : latest (calls ++ after) section_ key = latest calls section_ key := by
  induction after using List.reverseRecOn with
  | nil => rw [List.append_nil]
  | append_singleton after c ih =>
    have hc := h c (List.mem_append_right _ List.mem_cons_self)
    rw [← List.append_assoc, latest_concat, ih fun c hc => h c (List.mem_append_left _ hc)]
    cases c with
    | write s k val => exact if_neg (hc s k val rfl)
    | readStr => rfl

end DbOpIni

/-! ## Certificates in the table -/

/-- `JY_TCP_INI_CERT_SECTION`. -/
def JY_TCP_INI_CERT_SECTION : Text := ⟨ofAscii "cert", by decide⟩

/-- `JY_TCP_INI_SERVER_CERT_KEY`. -/
def JY_TCP_INI_SERVER_CERT_KEY : Text := ⟨ofAscii "server", by decide⟩

/-- `JY_TCP_INI_CLIENT_CERT_KEY`. -/
def JY_TCP_INI_CLIENT_CERT_KEY : Text := ⟨ofAscii "client", by decide⟩

/-- The key of one part of a certificate. -/
def certPart (keyName part : Text) : Text := ⟨keyName.val ++ part.val, by
  rw [List.mem_append]
  exact not_or_intro keyName.property part.property⟩

def partN : Text := ⟨ofAscii "_n", by decide⟩

def partE : Text := ⟨ofAscii "_e", by decide⟩

def partD : Text := ⟨ofAscii "_d", by decide⟩

def partLastGenDate : Text := ⟨ofAscii "_lastGenDate", by decide⟩

section

variable (db : Sqlite) (keyName : Text)

/-- `fmGenAndWriteCert` with the primes `genPrime` finds; `now` is `time2Str` of the time. -/
def fmGenAndWriteCert (bits p q : ℕ) (now : Text) (tab : List IniRow) : Except Fault (List IniRow) := do
  let n := p * q
  let phi := (p - 1) * (q - 1)
  let e ← (JyBigNum.getE bits).elim (.error .outside) .ok
  let d := JyBigNum.modInverse 0 e phi
  let section_ := JY_TCP_INI_CERT_SECTION.val
  let buf ← JyBigNum.getBuf n
  let tab := DbOpIni.writeBuf db section_ (certPart keyName partN).val buf tab
  let buf ← JyBigNum.getBuf e
  let tab := DbOpIni.writeBuf db section_ (certPart keyName partE).val buf tab
  let buf ← JyBigNum.getBuf d
  let tab := DbOpIni.writeBuf db section_ (certPart keyName partD).val buf tab
  pure (DbOpIni.write db section_ (certPart keyName partLastGenDate).val now.val tab)

/-- What the constructor of a secure `JyTcpListener` reads; `keyName` is `base`. -/
def loadCert (tab : List IniRow) : Except Fault Cert := do
  let section_ := JY_TCP_INI_CERT_SECTION.val
  let n ← DbOpIni.readBuf db section_ (certPart keyName partN).val tab
  let d ← DbOpIni.readBuf db section_ (certPart keyName partD).val tab
  let e ← DbOpIni.readBuf db section_ (certPart keyName partE).val tab
  pure ⟨n, d, e⟩

/-- The calls of `fmGenAndWriteCert`. -/
def certCalls (n e d : ℕ) (now : Text) : List IniCall := [
  .write JY_TCP_INI_CERT_SECTION (certPart keyName partN) (DbOpIni.hexText (JyBigNum.numBytes n)),
  .write JY_TCP_INI_CERT_SECTION (certPart keyName partE) (DbOpIni.hexText (JyBigNum.numBytes e)),
  .write JY_TCP_INI_CERT_SECTION (certPart keyName partD) (DbOpIni.hexText (JyBigNum.numBytes d)),
  .write JY_TCP_INI_CERT_SECTION (certPart keyName partLastGenDate) now]

end

namespace GenCert

open DbOpIni

variable {db : Sqlite} {keyName : Text} {bits p q e : ℕ} {now : Text} {tab tab₁ tab₂ : List IniRow}
  {before after : List IniCall}

theorem plain_part (hname : quote ∉ keyName.val) {part : Text} (hpart : quote ∉ part.val) :
    quote ∉ (certPart keyName part).val := by
  rw [certPart, List.mem_append]
  exact not_or_intro hname hpart

/-- **Generating a certificate is four writes.** -/
theorem run_certCalls (hname : quote ∉ keyName.val) (he : JyBigNum.getE bits = some e)
    (h : fmGenAndWriteCert db keyName bits p q now tab = .ok tab₁) :
    Run (restrict (Step db) fun _ c => Plain c) tab
      (certCalls keyName (p * q) e (JyBigNum.modInverse 0 e ((p - 1) * (q - 1))) now) tab₁ := by
  rw [fmGenAndWriteCert, he] at h
  simp only [JyBigNum.getBuf_eq, Option.elim_some, Except.bind, bind, pure, Except.pure] at h
  rw [← Except.ok.inj h]
  have hsection : quote ∉ JY_TCP_INI_CERT_SECTION.val := by decide
  have hstep : ∀ (tab : List IniRow) (key val : Text), quote ∉ key.val →
      restrict (Step db) (fun _ c => Plain c) tab (.write JY_TCP_INI_CERT_SECTION key val)
        (write db JY_TCP_INI_CERT_SECTION.val key.val val.val tab) :=
    fun tab key val hkey => ⟨.write tab _ key val, hsection, hkey⟩
  exact (((Run.nil.snoc (hstep _ _ (hexText _) (plain_part hname (by decide)))).snoc
    (hstep _ _ (hexText _) (plain_part hname (by decide)))).snoc
    (hstep _ _ (hexText _) (plain_part hname (by decide)))).snoc
    (hstep _ _ now (plain_part hname (by decide)))

/-- What was written last to the parts of a certificate. -/
theorem latest_certCalls (calls : List IniCall) (n e d : ℕ) (now : Text) :
    latest (calls ++ certCalls keyName n e d now) JY_TCP_INI_CERT_SECTION.val (certPart keyName partN).val =
        some (hexText (JyBigNum.numBytes n)).val ∧
      latest (calls ++ certCalls keyName n e d now) JY_TCP_INI_CERT_SECTION.val (certPart keyName partD).val =
        some (hexText (JyBigNum.numBytes d)).val ∧
      latest (calls ++ certCalls keyName n e d now) JY_TCP_INI_CERT_SECTION.val (certPart keyName partE).val =
        some (hexText (JyBigNum.numBytes e)).val := by
  have hkey : ∀ part part' : Text, (certPart keyName part).val = (certPart keyName part').val ↔ part.val = part'.val :=
    fun _ _ => List.append_right_inj _
  have hcalls : ∀ section_ key, latest (calls ++ certCalls keyName n e d now) section_ key = _ := fun section_ key => by
    rw [certCalls, List.append_cons, List.append_cons, List.append_cons, DbOpIni.latest_concat,
      DbOpIni.latest_concat, DbOpIni.latest_concat, DbOpIni.latest_concat]
  refine ⟨?_, ?_, ?_⟩ <;> rw [hcalls] <;> simp only [hkey, true_and] <;> rfl

/-- The call leaves the certificate alone. -/
def SparesCert (keyName : Text) (c : IniCall) : Prop :=
  ∀ part ∈ [partN, partE, partD], Spares JY_TCP_INI_CERT_SECTION.val (certPart keyName part).val c

/-- The key a certificate is made for. -/
def keyOf (hp : p.Prime) (hq : q.Prime) (hne : p ≠ q) (hcop : e.Coprime ((p - 1) * (q - 1)))
    (hlo : 16 ≤ JyBigNum.getBits (p * q)) (hhi : JyBigNum.getBits (p * q) ≤ 4096) : AsymmetricKey where
  p := p
  q := q
  e := e
  d := JyBigNum.modInverse 0 e ((p - 1) * (q - 1))
  pair := ⟨hp, hq, hne, JyBigNum.mul_modInverse 0 hcop
    (Nat.mul_pos (Nat.sub_pos_of_lt hp.one_lt) (Nat.sub_pos_of_lt hq.one_lt))⟩
  le_bits := hlo
  bits_le := hhi

theorem byteLen_lt {n k : ℕ} (h : n < 256 ^ k) (hk : k < 2 ^ 28) : byteLen n < 2 ^ 28 :=
  (byteLen_le_iff.mpr h).trans_lt hk

/-- **A generated certificate is what every later listener of the name loads, and works**: whatever was
written before, and whatever other pairs are written afterwards, the listener decrypts with one half of the
key of the two primes and publishes the other. -/
theorem loaded_of_run (hname : quote ∉ keyName.val) (hp : p.Prime) (hq : q.Prime) (hne : p ≠ q)
    (he : JyBigNum.getE bits = some e) (hcop : e.Coprime ((p - 1) * (q - 1)))
    (hlo : 16 ≤ JyBigNum.getBits (p * q)) (hhi : JyBigNum.getBits (p * q) ≤ 4096)
    (hbefore : Run (restrict (Step db) fun _ c => Plain c) [] before tab)
    (hgen : fmGenAndWriteCert db keyName bits p q now tab = .ok tab₁)
    (hafter : Run (restrict (Step db) fun _ c => Plain c ∧ SparesCert keyName c) tab₁ after tab₂) :
    ∃ (cert : Cert) (key : AsymmetricKey), loadCert db keyName tab₂ = .ok cert ∧
      (key.p = p ∧ key.q = q ∧ key.e = e) ∧ JyTcpEndpoint.published cert = key.encryptor ∧
      (JyTcpListener.new cert).decAsym_ = key.decryptor := by
  have hplain : Run (restrict (Step db) fun _ c => Plain c) tab₁ after tab₂ :=
    hafter.mono fun _ _ _ hstep => ⟨hstep.1, hstep.2.1⟩
  have hhold := holds_of_run ((hbefore.trans (run_certCalls hname he hgen)).trans hplain)
  have hspares : ∀ part ∈ [partN, partE, partD], ∀ c ∈ after,
      Spares JY_TCP_INI_CERT_SECTION.val (certPart keyName part).val c := by
    intro part hpart
    refine hafter.invariant_hist (I := fun after _ => ∀ c ∈ after, Spares _ _ c) (fun _ h => absurd h List.not_mem_nil)
      fun es _ c _ ih hstep c' hc' => ?_
    rcases List.mem_append.mp hc' with hc' | hc'
    · exact ih c' hc'
    · rw [List.mem_singleton.mp hc']
      exact hstep.2.2 part hpart
  have hread : ∀ {part : Text} {buf : Bytes}, part ∈ [partN, partE, partD] → quote ∉ part.val →
      latest (before ++ certCalls keyName (p * q) e (JyBigNum.modInverse 0 e ((p - 1) * (q - 1))) now)
        JY_TCP_INI_CERT_SECTION.val (certPart keyName part).val = some (hexText buf).val →
      readBuf db JY_TCP_INI_CERT_SECTION.val (certPart keyName part).val tab₂ = .ok buf :=
    fun hpart hquote hlatest => hhold.readBuf_eq (by decide) (plain_part hname hquote)
      ((latest_append (hspares _ hpart) _).trans hlatest)
  obtain ⟨hn, hd, hE⟩ := @latest_certCalls keyName before (p * q) e (JyBigNum.modInverse 0 e ((p - 1) * (q - 1))) now
  have hphi : 0 < (p - 1) * (q - 1) := Nat.mul_pos (Nat.sub_pos_of_lt hp.one_lt) (Nat.sub_pos_of_lt hq.one_lt)
  have hpq : p * q < 256 ^ 512 := lt_pow_of_size_le (show Nat.size (p * q) ≤ 8 * 512 from hhi)
  have hnlen : byteLen (p * q) < 2 ^ 28 := byteLen_lt hpq (by norm_num)
  have helen : byteLen e < 2 ^ 28 := byteLen_lt (JyBigNum.getE_lt he) (by norm_num)
  have hdlen : byteLen (JyBigNum.modInverse 0 e ((p - 1) * (q - 1))) < 2 ^ 28 := by
    have hle : (p - 1) * (q - 1) ≤ p * q := Nat.mul_le_mul (Nat.sub_le p 1) (Nat.sub_le q 1)
    exact byteLen_lt (((JyBigNum.modInverse_lt hcop hphi 0).trans_le hle).trans hpq) (by norm_num)
  refine ⟨⟨JyBigNum.numBytes (p * q), JyBigNum.numBytes (JyBigNum.modInverse 0 e ((p - 1) * (q - 1))),
    JyBigNum.numBytes e⟩, keyOf hp hq hne hcop hlo hhi, ?_, ⟨rfl, rfl, rfl⟩, ?_, ?_⟩
  · rw [loadCert]
    simp only [hread (by simp) (by decide) hn, hread (by simp) (by decide) hd, hread (by simp) (by decide) hE,
      Except.bind, bind, pure, Except.pure]
  · rw [JyTcpEndpoint.published, JyBigNum.setBuf_numBytes 0 hnlen, JyBigNum.setBuf_numBytes 0 hnlen,
      JyBigNum.setBuf_numBytes 0 helen]
    rfl
  · rw [JyTcpListener.new, JyBigNum.setBuf_numBytes 0 hnlen, JyBigNum.setBuf_numBytes 0 hdlen]
    rfl

/-- A server's certificate of the primes 227 and 263, and a client's written after it. -/
theorem loaded_of_run_here : ∃ tab₁ tab₂, fmGenAndWriteCert noOther JY_TCP_INI_SERVER_CERT_KEY 256 227 263 ⟨[], by simp⟩ [] =
      .ok tab₁ ∧ fmGenAndWriteCert noOther JY_TCP_INI_CLIENT_CERT_KEY 256 263 227 ⟨[], by simp⟩ tab₁ = .ok tab₂ ∧
    ∃ (cert : Cert) (key : AsymmetricKey), loadCert noOther JY_TCP_INI_SERVER_CERT_KEY tab₂ = .ok cert ∧
      (key.p = 227 ∧ key.q = 263 ∧ key.e = JyBigNum.spelled JyBigNum.p256) ∧
      JyTcpEndpoint.published cert = key.encryptor ∧ (JyTcpListener.new cert).decAsym_ = key.decryptor := by
  have hsome : ∀ (keyName : Text) (p q : ℕ) (tab : List IniRow), ∃ tab',
      fmGenAndWriteCert noOther keyName 256 p q ⟨[], by simp⟩ tab = .ok tab' := fun keyName p q tab => by
    rw [fmGenAndWriteCert]
    simp only [JyBigNum.getBuf_eq, JyBigNum.getE, Option.elim_some, Except.bind, bind, pure, Except.pure]
    exact ⟨_, rfl⟩
  obtain ⟨tab₁, hserver⟩ := hsome JY_TCP_INI_SERVER_CERT_KEY 227 263 []
  obtain ⟨tab₂, hclient⟩ := hsome JY_TCP_INI_CLIENT_CERT_KEY 263 227 tab₁
  have hafter := run_certCalls (by decide) rfl hclient
  refine ⟨tab₁, tab₂, hserver, hclient, loaded_of_run (by decide) (by norm_num) (by norm_num) (by norm_num) rfl
    (by decide +kernel) (by decide +kernel) (by decide +kernel) .nil hserver
    (hafter.restrict_mem.mono fun _ _ _ hstep => ⟨hstep.1.1, hstep.1.2, ?_⟩)⟩
  intro part hpart s k val hwrite hpair
  have hother : ∀ part' ∈ [partN, partE, partD, partLastGenDate], ∀ part ∈ [partN, partE, partD],
      (certPart JY_TCP_INI_CLIENT_CERT_KEY part').val ≠ (certPart JY_TCP_INI_SERVER_CERT_KEY part).val := by decide
  have hkey : ∃ part' ∈ [partN, partE, partD, partLastGenDate], k = certPart JY_TCP_INI_CLIENT_CERT_KEY part' := by
    have hmem := hstep.2
    rw [hwrite] at hmem
    simp only [certCalls, List.mem_cons, List.not_mem_nil, or_false, IniCall.write.injEq] at hmem
    rcases hmem with h | h | h | h
    · exact ⟨partN, by simp, h.2.1⟩
    · exact ⟨partE, by simp, h.2.1⟩
    · exact ⟨partD, by simp, h.2.1⟩
    · exact ⟨partLastGenDate, by simp, h.2.1⟩
  obtain ⟨part', hpart', rfl⟩ := hkey
  exact hother part' hpart' part hpart hpair.2

end GenCert

end EuhatExpert
