import Coherent.Lib.StopWait
import Coherent.KermitPacket

/-!
Whatever the line loses or damages, `kermit` delivers the files: what the receiver has is always the
beginning of what is to be sent, and all of it where one of the two sides has come to its end.
-/

namespace Coherent.Kermit

open Coherent.Lib

/-! ### What is to be sent -/

/-- A packet without its number. -/
structure Pack where
  type : Char
  len : ℤ
  data : List ℕ

/-- The packet as the one that comes as number `j`. -/
def Pack.head (pk : Pack) (j : ℕ) : Head := ⟨pk.type, ((j % 64 : ℕ) : ℤ), pk.len⟩

/-- What `spar` fills in. -/
def params : List ℕ :=
  [byte (tochar MAXPACKSIZ), byte (tochar MYTIME), byte (tochar MYPAD), ctl MYPCHAR,
    byte (tochar MYEOL), MYQUOTE]

/-- What the other side makes of it. -/
def learnt : Params := ⟨94, 0, 0, 10, MYQUOTE⟩

def initPack : Pack := ⟨'S', 6, params⟩

def namePack (f : Flags) (o : Outfile) : Pack :=
  ⟨'F', (newfilnam f o.filnamo).length, newfilnam f o.filnamo⟩

def eofPack : Pack := ⟨'Z', 0, []⟩

def breakPack : Pack := ⟨'B', 0, []⟩

/-- What stands for a packet where the sender gives up. -/
def lostPack : Pack := ⟨'E', 0, []⟩

/-- The data packets for a text. -/
inductive Datas (image : Bool) : List ℕ → List Pack → Prop
  | eof : Datas image [] []
  | more {ts rest l : List ℕ} {pks : List Pack} : ts ≠ [] → (∀ t ∈ ts, t < 256) →
      l = ts.flatMap (quoted image MYQUOTE) → l.length < 90 →
      (∀ buf, bufill image learnt buf (ts ++ rest) = ((l.length : ℤ), store buf 0 l, rest)) →
      Datas image rest pks → Datas image (ts ++ rest) (⟨'D', l.length, l⟩ :: pks)

/-- The data packets of a file: there is one even of an empty file. -/
inductive Body (image : Bool) : List ℕ → List Pack → Prop
  | empty : Body image [] [⟨'D', -1, []⟩]
  | text {text : List ℕ} {pks : List Pack} :
      text ≠ [] → Datas image text pks → Body image text pks

/-- The packets for the rest of the files. -/
inductive Files (cfg : Config) : List Outfile → List Pack → Prop
  | done : Files cfg [] [breakPack]
  | closed {f : Outfile} {fs : List Outfile} : f.text = none → Files cfg (f :: fs) [lostPack]
  | file {f : Outfile} {fs : List Outfile} {text : List ℕ} {ds pks : List Pack} :
      f.text = some text → Body cfg.image text ds → Files cfg fs pks →
      Files cfg (f :: fs) (namePack cfg.snd f :: (ds ++ eofPack :: pks))

/-- A file that can be sent: its names are printable and fit, its text is made of bytes. -/
structure Outfile.Ok (f : Outfile) : Prop where
  filnam : f.filnam.length < 50 ∧ ∀ c ∈ f.filnam, 32 ≤ c ∧ c < 127
  filnamo : f.filnamo.length < 50 ∧ ∀ c ∈ f.filnamo, 32 ≤ c ∧ c < 127
  text : ∀ text ∈ f.text, ∀ t ∈ text, t < 256

variable {image : Bool} {cfg : Config} {files fs : List Outfile} {f : Outfile}

lemma datas_exists (image : Bool) (text : List ℕ) (h : ∀ t ∈ text, t < 256) :
    ∃ pks, Datas image text pks := by
  induction hn : text.length using Nat.strong_induction_on generalizing text with
  | _ n ih =>
    by_cases h0 : text = []
    · exact ⟨[], h0 ▸ .eof⟩
    obtain ⟨ts, rest, rfl, hts, hlt, hfill⟩ :=
      @fill_spec image learnt 0 _ rfl rfl h (by omega)
    have hne := hts h0
    have hpos : 0 < ts.length := List.length_pos_of_ne_nil hne
    rw [List.length_append] at hn
    obtain ⟨pks, hpks⟩ := ih rest.length (by omega) rest
      (fun t ht => h t (List.mem_append_right _ ht)) rfl
    refine ⟨_, .more hne (fun t ht => h t (List.mem_append_left _ ht)) rfl (by omega)
      (fun buf => ?_) hpks⟩
    rw [bufill, hfill, if_neg (fun hh => h0 hh.2), Nat.zero_add]

lemma files_exists (cfg : Config) (fs : List Outfile) (h : ∀ f ∈ fs, f.Ok) :
    ∃ pks, Files cfg fs pks := by
  induction fs with
  | nil => exact ⟨_, .done⟩
  | cons f fs ih =>
    obtain ⟨pks, hpks⟩ := ih fun g hg => h g (List.mem_cons_of_mem _ hg)
    cases ht : f.text with
    | none => exact ⟨_, .closed ht⟩
    | some text =>
      by_cases h0 : text = []
      · subst h0
        exact ⟨_, .file ht .empty hpks⟩
      · obtain ⟨ds, hds⟩ := datas_exists cfg.image text
          ((h f List.mem_cons_self).text text ht)
        exact ⟨_, .file ht (.text h0 hds) hpks⟩

/-! ### What is on the line -/

/-- A line of bytes that is read as this packet. -/
def Comes (image : Bool) (line : List ℕ) (h : Head) (l : List ℕ) : Prop :=
  Reads image line h l ∧ ∀ c ∈ line, c < 256

lemma byte_lt (x : ℤ) : byte x < 256 := by
  unfold byte
  omega

lemma comes_spack {p : Params} {type : Char} {num len : ℤ} {data : Mem} (mflg : Bool)
    (h : Fits image p type num len (slice data 0 len.toNat)) :
    Comes image (spack mflg p type num len data) ⟨type, num, len⟩ (slice data 0 len.toNat) := by
  refine ⟨reads_spack mflg h, fun c hc => ?_⟩
  have hty := h.type_lt
  have heol := h.eol.lt
  simp only [spack, h.pad, Int.toNat_zero, List.replicate_zero, List.nil_append, List.mem_append,
    List.mem_cons, List.not_mem_nil, or_false] at hc
  rcases hc with ((((rfl | (rfl | rfl | rfl) | hc)) | rfl) | hc) | rfl
  · decide
  · exact byte_lt _
  · exact byte_lt _
  · omega
  · exact (h.data c hc).lt
  · exact byte_lt _
  · cases mflg
    · simp at hc
    · rw [if_pos rfl, List.mem_singleton] at hc
      omega
  · exact heol

/-- The parameters at the beginning and those for the rest of the time. -/
def Known (p : Params) : Prop := p = initial ∨ p = learnt

lemma Known.pad {p : Params} (h : Known p) : p.pad = 0 := by
  rcases h with rfl | rfl <;> rfl

lemma Known.eol {p : Params} (h : Known p) (image : Bool) : Good image p.eol := by
  rcases h with rfl | rfl
  · exact .of_lt (by decide) (by decide)
  · exact .of_lt (by decide) (by decide)

lemma Known.fits {p : Params} (h : Known p) {type : Char} (ht : 1 < type.toNat ∧ type.toNat < 128)
    (k : ℕ) {len : ℤ} (hlen : -1 ≤ len ∧ len ≤ 91) {l : List ℕ} (hl : ∀ c ∈ l, Good image c) :
    Fits image p type ((k % 64 : ℕ) : ℤ) len l :=
  ⟨h.pad, h.eol image, ht.1, ht.2, by omega, by omega, hlen.1, hlen.2, hl⟩

/-- The bytes of a packet whose data are given as a list. -/
lemma comes_pack {p : Params} (hp : Known p) (mflg : Bool) (pk : Pack) (k : ℕ)
    (ht : 1 < pk.type.toNat ∧ pk.type.toNat < 128) (hlen : -1 ≤ pk.len ∧ pk.len ≤ 91)
    (hl : ∀ c ∈ pk.data, Good image c) {data : Mem}
    (hdata : slice data 0 pk.len.toNat = pk.data) :
    Comes image (spack mflg p pk.type ((k % 64 : ℕ) : ℤ) pk.len data) (pk.head k) pk.data := by
  have h := comes_spack mflg (hp.fits ht k hlen (by rw [hdata]; exact hl))
  rwa [hdata] at h

/-! ### The sender -/

/-- Where the sender is, told by the packets it has still to send. -/
def Todo (cfg : Config) (s : Sender) (pks : List Pack) : Prop :=
  match s.state with
  | .S => ∃ r, pks = initPack :: r ∧ Files cfg (s.file :: s.filelist) r ∧ s.fp = none ∧
      s.par = initial
  | .F => Files cfg (s.file :: s.filelist) pks ∧ s.par = learnt ∧
      (s.fp = none ∧ s.waits = false ∨ ∃ text, s.fp = some text ∧ s.file.text = some text)
  | .D => ∃ l ds r fp, pks = ⟨'D', s.size, l⟩ :: (ds ++ eofPack :: r) ∧
      slice s.packet 0 s.size.toNat = l ∧ -1 ≤ s.size ∧ s.size < 90 ∧
      (∀ c ∈ l, Good cfg.image c) ∧ s.fp = some fp ∧ Datas cfg.image fp ds ∧
      Files cfg s.filelist r ∧ s.par = learnt
  | .Z => ∃ r, pks = eofPack :: r ∧ Files cfg s.filelist r ∧ s.par = learnt
  | .B => pks = [breakPack] ∧ s.par = learnt
  | .C => pks = []
  | .A => True

lemma base_spec (l m : List ℕ) {P : ℕ → Prop} (hl : ∀ c ∈ l, P c) (hm : ∀ c ∈ m, P c)
    (hlen : m.length ≤ l.length) : (∀ c ∈ base l m, P c) ∧ (base l m).length ≤ l.length := by
  induction m generalizing l with
  | nil => exact ⟨hl, le_rfl⟩
  | cons c m ih =>
    have hm' : ∀ d ∈ m, P d := fun d hd => hm d (List.mem_cons_of_mem _ hd)
    rw [List.length_cons] at hlen
    rw [base]
    split_ifs
    · obtain ⟨h1, h2⟩ := ih m hm' hm' le_rfl
      exact ⟨h1, by omega⟩
    · exact ih l hl hm' (by omega)

lemma newfilnam_ok (fl : Flags) (h : f.Ok) :
    (newfilnam fl f.filnamo).length < 50 ∧ ∀ c ∈ newfilnam fl f.filnamo, 32 ≤ c ∧ c < 127 := by
  obtain ⟨hlen, hch⟩ := h.filnamo
  have hbase := base_spec f.filnamo f.filnamo hch hch le_rfl
  have hupper : ∀ c, 97 ≤ c ∧ c ≤ 122 → c ^^^ 32 = c - 32 := by
    rintro c ⟨h1, h2⟩
    interval_cases c <;> decide
  have key : ∀ l : List ℕ, l.length < 50 → (∀ c ∈ l, 32 ≤ c ∧ c < 127) →
      (l.map fun c => if 97 ≤ c ∧ c ≤ 122 then c ^^^ 32 else c).length < 50 ∧
        ∀ c ∈ l.map fun c => if 97 ≤ c ∧ c ≤ 122 then c ^^^ 32 else c, 32 ≤ c ∧ c < 127 := by
    intro l h1 h2
    refine ⟨by simpa using h1, fun c hc => ?_⟩
    obtain ⟨d, hd, rfl⟩ := List.mem_map.mp hc
    have := h2 d hd
    split_ifs with hlow
    · rw [hupper d hlow]
      omega
    · exact this
  unfold newfilnam
  dsimp only
  split_ifs
  · exact key _ (by omega) hbase.1
  · exact key _ hlen hch
  · exact ⟨by omega, hbase.1⟩
  · exact ⟨hlen, hch⟩

lemma printable_good {l : List ℕ} (h : ∀ c ∈ l, 32 ≤ c ∧ c < 127) : ∀ c ∈ l, Good image c := by
  intro c hc
  have := h c hc
  exact .of_lt (by omega) (by unfold SOH; omega)

/-- What `error` sends is an error packet. -/
lemma error_spec {p : Params} (hp : Known p) (fl : Flags) (k : ℕ) {a : List ℕ} {fmt : String}
    (hfmt : (fmt.toList.map Char.toNat).length ≤ 14 ∧
      ∀ c ∈ fmt.toList.map Char.toNat, 32 ≤ c ∧ c < 127)
    (ha : a.length < 50 ∧ ∀ c ∈ a, 32 ≤ c ∧ c < 127) :
    ∀ line ∈ error fl p ((k % 64 : ℕ) : ℤ) fmt a,
      ∃ h l, Comes image line h l ∧ h.type = 'E' := by
  intro line hline
  unfold error at hline
  dsimp only at hline
  split_ifs at hline
  · obtain rfl := List.mem_singleton.mp hline
    refine ⟨_, _, comes_spack _ (hp.fits (by decide) k ?_ ?_), rfl⟩
    · rw [List.length_append]
      omega
    · rw [Int.toNat_natCast, slice_mem]
      refine printable_good fun c hc => ?_
      rcases List.mem_append.mp hc with hc | hc
      · exact hfmt.2 c hc
      · exact ha.2 c hc
  · simp at hline

/-- What a turn of the sender does before it reads: it gives up, or it sends the packet that is
next. -/
structure Sends (cfg : Config) (k : ℕ) (pks : List Pack) (s : Sender)
    (r : Sender × List (List ℕ)) : Prop where
  n : r.1.n = s.n
  file : r.1.file = s.file
  filelist : r.1.filelist = s.filelist
  does : (r.1.state = .A ∧ r.1.waits = false ∧ (MAXTRY < r.1.numtry ∨ s.file.text = none) ∧
      ∀ line ∈ r.2, s.file.text = none ∧ ∃ h l, Comes cfg.image line h l ∧ h.type = 'E') ∨
    (r.1.state = s.state ∧ Todo cfg r.1 pks ∧ ∃ pk rest line, pks = pk :: rest ∧
      r.2 = [line] ∧ Comes cfg.image line (pk.head k) pk.data)

section Sending

variable {s : Sender} {k : ℕ} {pks : List Pack}

lemma sinitSend_spec (h : Todo cfg s pks) (hs : s.state = .S) (hn : s.n = ((k % 64 : ℕ) : ℤ)) :
    Sends cfg k pks s (sinitSend cfg.snd s) := by
  simp only [Todo, hs] at h
  obtain ⟨r, rfl, hr, hfp, hpar⟩ := h
  refine ⟨rfl, rfl, rfl, Or.inr ⟨rfl, ?_,
    initPack, r, _, rfl, rfl, ?_⟩⟩
  · simp only [Todo, sinitSend, hs]
    exact ⟨r, rfl, hr, hfp, hpar⟩
  · have hp : ∀ c ∈ params, c < 128 ∧ c ≠ SOH := by decide
    rw [hn]
    exact comes_pack (.inl hpar) cfg.snd.mflg initPack k (by decide) (by decide)
      (fun c hc => .of_lt (hp c hc).1 (hp c hc).2) (slice_store _ params)

/-- The name of an open file goes out. -/
lemma sfilePack_spec {text : List ℕ} (h : Files cfg (s.file :: s.filelist) pks)
    (hs : s.state = .F) (hn : s.n = ((k % 64 : ℕ) : ℤ)) (hpar : s.par = learnt)
    (hfp : s.fp = some text) (ht : s.file.text = some text) (hf : s.file.Ok) :
    Sends cfg k pks s (sfilePack cfg.snd s) := by
  have hname := newfilnam_ok cfg.snd hf
  refine ⟨rfl, rfl, rfl, Or.inr ⟨rfl, ?_, ?_⟩⟩
  · simp only [Todo, sfilePack, hs]
    exact ⟨h, hpar, Or.inr ⟨text, hfp, ht⟩⟩
  · cases h with
    | closed hnone =>
      rw [ht] at hnone
      cases hnone
    | file _ hbody hrest =>
      refine ⟨_, _, _, rfl, rfl, ?_⟩
      rw [hn]
      exact comes_pack (.inr hpar) cfg.snd.mflg (namePack cfg.snd s.file) k
        (by simp [namePack]) (by simp only [namePack]; omega) (printable_good hname.2)
        (by simp only [namePack, Int.toNat_natCast]; exact slice_mem _)

lemma sfileSend_spec (h : Todo cfg s pks) (hs : s.state = .F) (hn : s.n = ((k % 64 : ℕ) : ℤ))
    (hw : s.waits = false) (hf : s.file.Ok) : Sends cfg k pks s (sfileSend cfg.snd s) := by
  simp only [Todo, hs] at h
  obtain ⟨hfiles, hpar, hopen⟩ := h
  unfold sfileSend
  split
  · rename_i text hfp
    rcases hopen with ⟨hnone, _⟩ | ⟨text', hfp', ht⟩
    · rw [hfp] at hnone
      cases hnone
    · exact sfilePack_spec hfiles hs hn hpar hfp' ht hf
  · split
    · rename_i ht
      refine ⟨rfl, rfl, rfl, Or.inl ⟨rfl, hw, Or.inr ht, fun line hl => ⟨ht, ?_⟩⟩⟩
      dsimp only at hl
      rw [hn] at hl
      exact error_spec (.inr hpar) cfg.snd k (by decide) hf.filnam line hl
    · rename_i text ht
      have hp := sfilePack_spec (s := { s with fp := some text }) hfiles hs hn hpar rfl ht hf
      exact ⟨hp.n, hp.file, hp.filelist, hp.does⟩

lemma sdataSend_spec (h : Todo cfg s pks) (hs : s.state = .D) (hn : s.n = ((k % 64 : ℕ) : ℤ)) :
    Sends cfg k pks s (sdataSend cfg.snd s) := by
  simp only [Todo, hs] at h
  obtain ⟨l, ds, r, fp, rfl, hl, hsz, hsz', hgood, hfp, hds, hr, hpar⟩ := h
  refine ⟨rfl, rfl, rfl, Or.inr ⟨rfl, ?_,
    _, _, _, rfl, rfl, ?_⟩⟩
  · simp only [Todo, sdataSend, hs]
    exact ⟨l, ds, r, fp, rfl, hl, hsz, hsz', hgood, hfp, hds, hr, hpar⟩
  · rw [hn]
    exact comes_pack (.inr hpar) cfg.snd.mflg ⟨'D', s.size, l⟩ k (by simp)
      ⟨hsz, by dsimp only; omega⟩ hgood hl

lemma seofSend_spec (h : Todo cfg s pks) (hs : s.state = .Z) (hn : s.n = ((k % 64 : ℕ) : ℤ)) :
    Sends cfg k pks s (seofSend cfg.snd s) := by
  simp only [Todo, hs] at h
  obtain ⟨r, rfl, hr, hpar⟩ := h
  refine ⟨rfl, rfl, rfl, Or.inr ⟨rfl, ?_,
    eofPack, r, _, rfl, rfl, ?_⟩⟩
  · simp only [Todo, seofSend, hs]
    exact ⟨r, rfl, hr, hpar⟩
  · rw [hn]
    exact comes_pack (.inr hpar) cfg.snd.mflg eofPack k (by decide) (by decide)
      (fun c hc => by simp [eofPack] at hc) rfl

lemma sbreakSend_spec (h : Todo cfg s pks) (hs : s.state = .B) (hn : s.n = ((k % 64 : ℕ) : ℤ)) :
    Sends cfg k pks s (sbreakSend cfg.snd s) := by
  simp only [Todo, hs] at h
  obtain ⟨rfl, hpar⟩ := h
  refine ⟨rfl, rfl, rfl, Or.inr ⟨rfl, ?_,
    breakPack, [], _, rfl, rfl, ?_⟩⟩
  · simpa only [Todo, sbreakSend, hs, true_and] using hpar
  · rw [hn]
    exact comes_pack (.inr hpar) cfg.snd.mflg breakPack k (by decide) (by decide)
      (fun c hc => by simp [breakPack] at hc) rfl

lemma sendTurn_spec (h : Todo cfg s pks) (hn : s.n = ((k % 64 : ℕ) : ℤ)) (hw : s.waits = false)
    (hC : s.state ≠ .C) (hA : s.state ≠ .A) (hf : s.file.Ok) :
    Sends cfg k pks s (sendTurn cfg.snd s) := by
  unfold sendTurn
  dsimp only
  split_ifs with htry
  · exact ⟨rfl, rfl, rfl, Or.inl ⟨rfl, hw, Or.inl (by dsimp only; omega), by simp⟩⟩
  have hstep : ∀ r, Sends cfg k pks { s with numtry := s.numtry + 1 } r → Sends cfg k pks s r :=
    fun r hr => ⟨hr.n, hr.file, hr.filelist, hr.does⟩
  split
  · rename_i hs
    exact hstep _ (sinitSend_spec h hs hn)
  · rename_i hs
    exact hstep _ (sfileSend_spec h hs hn hw hf)
  · rename_i hs
    exact hstep _ (sdataSend_spec h hs hn)
  · rename_i hs
    exact hstep _ (seofSend_spec h hs hn)
  · rename_i hs
    exact hstep _ (sbreakSend_spec h hs hn)
  · rename_i h1 h2 h3 h4 h5
    cases hs : s.state <;> simp_all

/-- The sender has its answer. -/
lemma acked_data {fp : List ℕ} {pk : Pack} {ds r : List Pack} (hpar : s.par = learnt)
    (hfp : s.fp = some fp) (hds : Datas cfg.image fp (pk :: ds)) (hr : Files cfg s.filelist r) :
    let s' := s.bump.fill cfg.image
    s'.size ≠ -1 ∧ Todo cfg { s' with state := .D } (pk :: (ds ++ eofPack :: r)) := by
  cases hds with
  | @more ts rest l _ hne hts hl hlt hfill hrest =>
    have hb : bufill cfg.image s.bump.par s.bump.packet (s.bump.fp.getD []) =
        ((l.length : ℤ), store s.packet 0 l, rest) := by
      have := hfill s.packet
      simpa [Sender.bump, hpar, hfp] using this
    dsimp only
    simp only [Sender.fill, hb]
    refine ⟨by omega, ?_⟩
    simp only [Todo]
    refine ⟨l, ds, r, rest, rfl, ?_, by omega, by omega, fun c hc => ?_, rfl, hrest, hr, hpar⟩
    · rw [Int.toNat_natCast]
      exact slice_store _ l
    · rw [hl] at hc
      obtain ⟨t, ht, hc⟩ := List.mem_flatMap.mp hc
      obtain ⟨h1, h2, h3⟩ := quoted_good cfg.image t (hts t ht) c hc
      exact ⟨h1, h2, h3⟩

/-- What the acknowledgement of the packet that is next does. -/
def Acked (cfg : Config) (k : ℕ) (pks : List Pack) (s s' : Sender) : Prop :=
  s'.waits = s.waits ∧ (∀ f ∈ s'.file :: s'.filelist, f ∈ s.file :: s.filelist) ∧
    (s'.state ≠ .S ∧ s'.state ≠ .A) ∧ s'.n = (((k + 1) % 64 : ℕ) : ℤ) ∧
    ∃ pk rest, pks = pk :: rest ∧ Todo cfg s' rest

lemma bump_n (hn : s.n = ((k % 64 : ℕ) : ℤ)) : s.bump.n = (((k + 1) % 64 : ℕ) : ℤ) := by
  simp only [Sender.bump, hn]
  omega

lemma acked_F (h : Todo cfg s pks) (hs : s.state = .F) (hn : s.n = ((k % 64 : ℕ) : ℤ))
    (hfp : s.fp ≠ none) :
    Acked cfg k pks s { s.bump.fill cfg.image with state := .D } := by
  simp only [Todo, hs] at h
  obtain ⟨hfiles, hpar, ⟨hnone, _⟩ | ⟨text, hopen, ht⟩⟩ := h
  · exact absurd hnone hfp
  cases hfiles with
  | closed hnone =>
    rw [ht] at hnone
    cases hnone
  | @file _ _ text' ds r ht' hbody hr =>
    obtain rfl := Option.some.inj (ht.symm.trans ht')
    refine ⟨rfl, fun f hf => hf, by simp, bump_n hn, _, _, rfl, ?_⟩
    cases hbody with
    | empty =>
      simp only [Todo, Sender.fill, Sender.bump, hopen, Option.getD_some, bufill, fill, if_true]
      exact ⟨[], [], r, [], rfl, rfl, by omega, by omega, by simp, rfl, .eof, hr, hpar⟩
    | text h0 hds =>
      obtain ⟨pk, ds, rfl⟩ : ∃ pk ds', ds = pk :: ds' := by
        cases hds with
        | eof => exact absurd rfl h0
        | more => exact ⟨_, _, rfl⟩
      exact (acked_data hpar hopen hds hr).2

lemma acked_D (h : Todo cfg s pks) (hs : s.state = .D) (hn : s.n = ((k % 64 : ℕ) : ℤ)) :
    Acked cfg k pks s { s.bump.fill cfg.image with
      state := if (s.bump.fill cfg.image).size = -1 then .Z else .D } := by
  simp only [Todo, hs] at h
  obtain ⟨l, ds, r, fp, rfl, hl, hsz, hsz', hgood, hfp, hds, hr, hpar⟩ := h
  refine ⟨rfl, fun f hf => hf, by dsimp only; split_ifs <;> simp, bump_n hn, _, _, rfl, ?_⟩
  cases ds with
  | nil =>
    cases hds with
    | eof =>
      have hsize : (s.bump.fill cfg.image).size = -1 := by
        simp [Sender.fill, Sender.bump, hfp, bufill, fill]
      simp only [hsize, if_true, Todo]
      exact ⟨r, rfl, hr, hpar⟩
  | cons pk ds =>
    obtain ⟨hsize, htodo⟩ := acked_data hpar hfp hds hr
    rw [if_neg hsize]
    exact htodo

lemma acked_Z (h : Todo cfg s pks) (hs : s.state = .Z) (hn : s.n = ((k % 64 : ℕ) : ℤ))
    (hw : s.waits = false) :
    Acked cfg k pks s (match s.filelist with
      | [] => { s.bump with fp := none, state := .B }
      | f :: fs => { s.bump with fp := none, file := f, filelist := fs, state := .F }) := by
  simp only [Todo, hs] at h
  obtain ⟨r, rfl, hr, hpar⟩ := h
  split
  · rename_i hl
    refine ⟨rfl, fun f hf => hf, by simp, bump_n hn, _, _, rfl, ?_⟩
    rw [hl] at hr
    cases hr
    exact ⟨rfl, hpar⟩
  · rename_i f fs hl
    refine ⟨rfl, fun g hg => ?_, by simp, bump_n hn, _, _, rfl, ?_⟩
    · rw [hl]
      exact List.mem_cons_of_mem _ hg
    · rw [hl] at hr
      exact ⟨hr, hpar, Or.inl ⟨rfl, hw⟩⟩

lemma acked_B (h : Todo cfg s pks) (hs : s.state = .B) (hn : s.n = ((k % 64 : ℕ) : ℤ)) :
    Acked cfg k pks s { s.bump with state := .C } := by
  simp only [Todo, hs] at h
  obtain ⟨rfl, _⟩ := h
  exact ⟨rfl, fun f hf => hf, by simp, bump_n hn, _, _, rfl, rfl⟩

/-- What an answer says: what it has been asked for last, or what is still missing. -/
def Answer (e : ℕ) (h : Head) : Prop :=
  (h.type = 'Y' ∧ ∃ j, e = j + 1 ∧ h.num = ((j % 64 : ℕ) : ℤ)) ∨
    (h.type = 'N' ∧ h.num = ((e % 64 : ℕ) : ℤ))

lemma reply_new (acked : Sender → Sender) (hn : s.n = ((k % 64 : ℕ) : ℤ)) {h : Head}
    (ha : Answer (k + 1) h) : reply acked s (some h) = acked s := by
  rcases ha with ⟨ht, j, hj, hnum⟩ | ⟨ht, hnum⟩
  · obtain rfl : j = k := by omega
    simp only [reply, ht, hn, hnum]
    simp
  · simp only [reply, ht, hn, hnum]
    rw [if_neg]
    split_ifs <;> omega

lemma reply_old (acked : Sender → Sender) (hn : s.n = ((k % 64 : ℕ) : ℤ)) {h : Head}
    (ha : Answer k h) : reply acked s (some h) = s := by
  rcases ha with ⟨ht, j, hj, hnum⟩ | ⟨ht, hnum⟩
  · simp only [reply, ht, hn, hnum]
    rw [if_pos (by omega)]
  · simp only [reply, ht, hn, hnum]
    rw [if_pos]
    split_ifs <;> omega

end Sending

/-- Nothing, or nothing that is a packet, or, for a reason, an error packet. -/
def Noise (image : Bool) (why : Prop) (line : List ℕ) : Prop :=
  (∀ c ∈ line, c < 256) ∧ ((∀ buf, (rpack image line buf).1 = none) ∨
    why ∧ ∃ h l, Comes image line h l ∧ h.type = 'E')

/-- An answer on the line. -/
def Back (image : Bool) (e : ℕ) (line : List ℕ) : Prop :=
  ∃ h l, Comes image line h l ∧ Answer e h ∧ (e = 1 → h.type = 'Y' → l = params)

section Hearing

variable {s : Sender} {k e : ℕ} {pks : List Pack} {line : List ℕ} {why : Prop}

/-- What the sender makes of what it hears: nothing, or it goes on, or it gives up for a reason. -/
structure Heard (cfg : Config) (k : ℕ) (pks : List Pack) (why : Prop) (s s' : Sender) (new : Prop) :
    Prop where
  waits : s'.waits = false
  files : ∀ f ∈ s'.file :: s'.filelist, f ∈ s.file :: s.filelist
  does : (s'.n = s.n ∧ s'.state = s.state ∧ Todo cfg s' pks) ∨
    (s'.state = .A ∧ s'.n = s.n ∧ why) ∨
    (new ∧ (s'.state ≠ .S ∧ s'.state ≠ .A) ∧ s'.n = (((k + 1) % 64 : ℕ) : ℤ) ∧
      ∃ pk rest, pks = pk :: rest ∧ Todo cfg s' rest)

/-- The sender as it reads. -/
def Sender.reads (s : Sender) (m : Mem) : Sender := { s with waits := false, recpkt := m }

lemma Todo.reads (h : Todo cfg s pks) (m : Mem) (hF : s.state = .F → s.fp ≠ none) :
    Todo cfg (s.reads m) pks := by
  unfold Todo at h ⊢
  cases hs : s.state <;> simp only [hs, Sender.reads] at h ⊢ <;> try exact h
  obtain ⟨h1, h2, ⟨h3, _⟩ | h3⟩ := h
  · exact absurd h3 (hF hs)
  · exact ⟨h1, h2, Or.inr h3⟩

lemma hearTurn_eq {g : Option Head} {m : Mem} (hg : rpack image line s.recpkt = (g, m)) :
    hearTurn image s line = match s.state with
      | .S => sinit (s.reads m) g
      | .F => sfile image (s.reads m) g
      | .D => sdata image (s.reads m) g
      | .Z => seof (s.reads m) g
      | .B => sbreak (s.reads m) g
      | _ => s.reads m := by
  unfold hearTurn
  rw [hg]
  rfl

lemma hear_none {m : Mem} (hg : rpack image line s.recpkt = (none, m)) :
    hearTurn image s line = s.reads m := by
  rw [hearTurn_eq hg]
  split <;> rfl

lemma hear_error {h : Head} {m : Mem} (hg : rpack image line s.recpkt = (some h, m))
    (hE : h.type = 'E') (hC : s.state ≠ .C) (hA : s.state ≠ .A) :
    hearTurn image s line = { s.reads m with state := .A } := by
  rw [hearTurn_eq hg]
  split
  · simp only [sinit, hE]
    rfl
  · simp only [sfile, reply, hE]
    rfl
  · simp only [sdata, reply, hE]
    rfl
  · simp only [seof, reply, hE]
    rfl
  · simp only [sbreak, reply, hE]
    rfl
  · rename_i h1 h2 h3 h4 h5
    cases hs : s.state <;> simp_all

lemma hear_noise (h : Todo cfg s pks) (hF : s.state = .F → s.fp ≠ none) (hC : s.state ≠ .C)
    (hA : s.state ≠ .A) (hl : Noise cfg.image why line) (new : Prop) :
    Heard cfg k pks why s (hearTurn cfg.image s line) new := by
  rcases hl.2 with hnone | ⟨hwhy, hd, l, hcomes, hE⟩
  · rw [hear_none (Prod.ext (hnone s.recpkt) rfl)]
    exact ⟨rfl, fun f hf => hf, Or.inl ⟨rfl, rfl, h.reads _ hF⟩⟩
  · rw [hear_error (hcomes.1.2 s.recpkt) hE hC hA]
    exact ⟨rfl, fun f hf => hf, Or.inr (Or.inl ⟨rfl, rfl, hwhy⟩)⟩

/-- An old answer. -/
lemma hear_old (h : Todo cfg s pks) (hF : s.state = .F → s.fp ≠ none)
    (hn : s.n = ((k % 64 : ℕ) : ℤ)) (hl : Back cfg.image k line) (new : Prop) :
    Heard cfg k pks why s (hearTurn cfg.image s line) new := by
  obtain ⟨hd, l, ⟨hreads, _⟩, ha, _⟩ := hl
  obtain ⟨m, hm⟩ : ∃ m, m = Function.update (store s.recpkt 0 l) hd.len 0 := ⟨_, rfl⟩
  have hg : rpack cfg.image line s.recpkt = (some hd, m) := hm ▸ hreads.2 s.recpkt
  have hn' : (s.reads m).n = ((k % 64 : ℕ) : ℤ) := hn
  have hr := fun acked => reply_old acked hn' ha
  have hsame : hearTurn cfg.image s line = s.reads m := by
    rw [hearTurn_eq hg]
    split
    · rcases ha with ⟨ht, j, hj, hnum⟩ | ⟨ht, _⟩
      · simp only [sinit, ht]
        rw [hn', hnum, if_pos (by omega)]
      · simp only [sinit, ht]
    · exact hr _
    · exact hr _
    · exact hr _
    · exact hr _
    · rfl
  rw [hsame]
  exact ⟨rfl, fun f hf => hf, Or.inl ⟨rfl, rfl, h.reads _ hF⟩⟩

/-- What `rpar` finds in a packet that `spar` has filled in. -/
lemma rpar_params (buf : Mem) (x : ℤ) (hx : 6 ≤ x) :
    rpar (Function.update (store buf 0 params) x 0) = learnt := by
  have hat : ∀ i : ℤ, 0 ≤ i → i < 6 →
      Function.update (store buf 0 params) x 0 i = params.getD i.toNat 0 := by
    intro i h0 h6
    rw [Function.update_of_ne (by omega), store_apply, if_pos]
    · simp
    · have : params.length = 6 := rfl
      simp only [this]
      omega
  simp only [rpar, hat 0 (by decide) (by decide), hat 2 (by decide) (by decide),
    hat 3 (by decide) (by decide), hat 4 (by decide) (by decide), hat 5 (by decide) (by decide)]
  decide

/-- The answer to the packet that is next. -/
lemma hear_new (h : Todo cfg s pks) (hF : s.state = .F → s.fp ≠ none) (hC : s.state ≠ .C)
    (hA : s.state ≠ .A) (hn : s.n = ((k % 64 : ℕ) : ℤ)) (hk : s.state = .S → k = 0)
    (hl : Back cfg.image (k + 1) line) {new : Prop} (hnew : new) :
    Heard cfg k pks why s (hearTurn cfg.image s line) new := by
  obtain ⟨hd, l, ⟨hreads, _⟩, ha, hpars⟩ := hl
  obtain ⟨m, hm⟩ : ∃ m, m = Function.update (store s.recpkt 0 l) hd.len 0 := ⟨_, rfl⟩
  have hg : rpack cfg.image line s.recpkt = (some hd, m) := hm ▸ hreads.2 s.recpkt
  have hT := h.reads m hF
  have hn' : (s.reads m).n = ((k % 64 : ℕ) : ℤ) := hn
  have hr := fun acked => reply_new acked hn' ha
  have hack : ∀ s', Acked cfg k pks (s.reads m) s' → Heard cfg k pks why s s' new :=
    fun s' hs' => ⟨hs'.1, hs'.2.1, Or.inr (Or.inr ⟨hnew, hs'.2.2⟩)⟩
  rw [hearTurn_eq hg]
  split
  · rename_i hs
    obtain rfl := hk hs
    rcases ha with ⟨ht, j, hj, hnum⟩ | ⟨ht, _⟩
    · obtain rfl : j = 0 := by omega
      have hrp : rpar m = learnt := by
        have hlen := hreads.1
        rw [hpars rfl ht] at hlen
        have h6 : params.length = 6 := rfl
        rw [hm, hpars rfl ht]
        exact rpar_params _ _ (by omega)
      simp only [Todo, hs] at h
      obtain ⟨r, rfl, hr', hfp, _⟩ := h
      simp only [sinit, ht, hn', hnum]
      rw [if_neg (by simp)]
      refine hack _ ⟨rfl, fun f hf => hf, by simp, bump_n hn', _, _, rfl, ?_⟩
      simp only [Todo]
      refine ⟨hr', ?_, Or.inl ⟨hfp, rfl⟩⟩
      simp only [Sender.reads, hrp]
      decide
    · simp only [sinit, ht]
      exact ⟨rfl, fun f hf => hf, Or.inl ⟨rfl, rfl, hT⟩⟩
  · rename_i hs
    rw [sfile, hr]
    exact hack _ (acked_F hT hs hn' (hF hs))
  · rename_i hs
    rw [sdata, hr]
    exact hack _ (acked_D hT hs hn')
  · rename_i hs
    rw [seof, hr]
    exact hack _ (acked_Z hT hs hn' rfl)
  · rename_i hs
    rw [sbreak, hr]
    exact hack _ (acked_B hT hs hn')
  · rename_i h1 h2 h3 h4 h5
    cases hs : s.state <;> simp_all

end Hearing

/-! ### The receiver -/

/-- The name that a file gets. -/
def outname (cfg : Config) (g : Outfile) : List ℕ :=
  let name := newfilnam cfg.snd g.filnamo
  if cfg.rcv.filnamcnv then name.map fun c => if 65 ≤ c ∧ c ≤ 90 then c ||| 32 else c else name

lemma outname_ok (h : f.Ok) :
    (outname cfg f).length < 50 ∧ ∀ c ∈ outname cfg f, 32 ≤ c ∧ c < 127 := by
  obtain ⟨hlen, hch⟩ := newfilnam_ok cfg.snd h
  have hlower : ∀ c, 65 ≤ c ∧ c ≤ 90 → c ||| 32 = c + 32 := by
    rintro c ⟨h1, h2⟩
    interval_cases c <;> decide
  unfold outname
  dsimp only
  split_ifs
  · refine ⟨by simpa using hlen, fun c hc => ?_⟩
    obtain ⟨d, hd, rfl⟩ := List.mem_map.mp hc
    have := hch d hd
    split_ifs with hup
    · rw [hlower d hup]
      omega
    · exact this
  · exact ⟨hlen, hch⟩

/-- What arrives of a file. -/
def sent (cfg : Config) (g : Outfile) : List ℕ × List ℕ :=
  (outname cfg g, (g.text.getD []).flatMap (arrives cfg.image))

/-- Some first files, and the beginning of the next one. -/
def Got (cfg : Config) (files : List Outfile) (closed : List (List ℕ × List ℕ))
    (fp : Option (List ℕ × List ℕ)) : Prop :=
  ∃ i, closed = (files.take i).map (sent cfg) ∧ (fp = none ∨ ∃ g ts rest, files[i]? = some g ∧
    g.text = some (ts ++ rest) ∧ fp = some (outname cfg g, ts.flatMap (arrives cfg.image)))

/-- Where the receiver is, told by the packets that are still to come. -/
def Stage (cfg : Config) (files : List Outfile) (r : Receiver) (pks : List Pack) : Prop :=
  match r.state with
  | .R => r.closed = [] ∧ r.fp = none ∧ ∃ q, pks = initPack :: q ∧ Files cfg files q
  | .F => ∃ i, r.closed = (files.take i).map (sent cfg) ∧ r.fp = none ∧
      Files cfg (files.drop i) pks
  | .D => ∃ i g ts rest ds q, files[i]? = some g ∧ r.closed = (files.take i).map (sent cfg) ∧
      g.text = some (ts ++ rest) ∧ r.fp = some (outname cfg g, ts.flatMap (arrives cfg.image)) ∧
      pks = ds ++ eofPack :: q ∧ (Body cfg.image rest ds ∨ Datas cfg.image rest ds) ∧
      Files cfg (files.drop (i + 1)) q
  | .C => r.closed = files.map (sent cfg) ∧ r.fp = none
  | .A => pks ≠ [] ∧ Got cfg files r.closed r.fp

lemma files_ne {pks : List Pack} (h : Files cfg fs pks) : pks ≠ [] := by
  cases h <;> simp

section Receiving

variable {r : Receiver} {m j : ℕ} {pks : List Pack} {line : List ℕ} {new : Prop}

lemma Stage.got (h : Stage cfg files r pks) : Got cfg files r.closed r.fp := by
  unfold Stage at h
  split at h
  · exact ⟨0, by simpa using h.1, Or.inl h.2.1⟩
  · obtain ⟨i, h1, h2, _⟩ := h
    exact ⟨i, h1, Or.inl h2⟩
  · obtain ⟨i, g, ts, rest, _, _, h1, h2, h3, h4, _⟩ := h
    exact ⟨i, h2, Or.inr ⟨g, ts, rest, h1, h3, h4⟩⟩
  · exact ⟨files.length, by simpa using h.1, Or.inl h.2⟩
  · exact h.2

lemma Stage.ne (h : Stage cfg files r pks) (hC : r.state ≠ .C) : pks ≠ [] := by
  unfold Stage at h
  split at h
  · obtain ⟨_, _, q, rfl, _⟩ := h
    simp
  · obtain ⟨i, _, _, hf⟩ := h
    exact files_ne hf
  · obtain ⟨i, g, ts, rest, ds, q, _, _, _, _, rfl, _⟩ := h
    simp
  · rename_i hs
    exact absurd hs hC
  · exact h.1

/-- The state that a packet of this type brings about. -/
def After (t : Char) (q : RState) : Prop :=
  t = 'S' ∧ q = .F ∨ t = 'F' ∧ q = .D ∨ t = 'D' ∧ q = .D ∨ t = 'Z' ∧ q = .F ∨ q = .C ∨ q = .A

/-- What a turn of the receiver does: it answers what it has had last, or takes what it waits for,
or gives up for a reason. -/
structure Recvs (cfg : Config) (files : List Outfile) (m : ℕ) (pks : List Pack) (new : Prop)
    (r : Receiver) (out : Receiver × List (List ℕ)) : Prop where
  par : Known out.1.par
  clean : Clean cfg.image out.1.packet
  does : (out.1.n = r.n ∧ out.1.state = r.state ∧ Stage cfg files out.1 pks ∧
      ∃ line, out.2 = [line] ∧ Back cfg.image m line) ∨
    (new ∧ (out.1.state ≠ .C → out.1.n = (((m + 1) % 64 : ℕ) : ℤ)) ∧
      out.1.state ≠ .R ∧ out.1.state ≠ .A ∧ ∃ pk rest line, pks = pk :: rest ∧
        Stage cfg files out.1 rest ∧ After pk.type out.1.state ∧ out.2 = [line] ∧ Back cfg.image (m + 1) line) ∨
    (out.1.state = .A ∧ out.1.n = r.n ∧ Stage cfg files out.1 pks ∧
      (MAXTRY < out.1.numtry ∨ MAXTRY < out.1.oldtry ∨ (∃ f ∈ files, f.text = none) ∨
        ∃ f ∈ files, cfg.creates (outname cfg f) = false) ∧
      ∀ line ∈ out.2, (∃ f ∈ files, cfg.creates (outname cfg f) = false) ∧
        ∃ h l, Comes cfg.image line h l ∧ h.type = 'E')

lemma back_nak (hp : Known r.par) (hn : r.n = ((m % 64 : ℕ) : ℤ)) (fl : Flags) :
    ∃ line, r.nak fl = [line] ∧ Back image m line := by
  refine ⟨_, rfl, ⟨'N', r.n, 0⟩, [], ?_, Or.inr ⟨rfl, hn⟩, fun _ h => by cases h⟩
  rw [hn]
  exact comes_spack fl.mflg (hp.fits (by decide) m (by decide) (by simp [slice]))

lemma back_ack (hp : Known r.par) (hc : Clean image r.packet) (fl : Flags) {num len : ℤ}
    (hnum : num = ((j % 64 : ℕ) : ℤ)) (hlen : len = 0 ∨ len = 6)
    (h0 : j = 0 → slice r.packet 0 len.toNat = params) :
    ∃ line, r.ack fl num len = [line] ∧ Back image (j + 1) line := by
  refine ⟨_, rfl, ⟨'Y', num, len⟩, slice r.packet 0 len.toNat, ?_,
    Or.inl ⟨rfl, j, rfl, hnum⟩, fun h1 _ => h0 (by omega)⟩
  rw [hnum]
  exact comes_spack fl.mflg (hp.fits (by decide) j (by rcases hlen with rfl | rfl <;> decide)
    (hc.slice 0 _))

/-- The receiver as it has read. -/
def Receiver.reads (r : Receiver) (p : Mem) : Receiver :=
  { r with numtry := r.numtry + 1, packet := p }

lemma recTurn_eq {g : Option Head} {p : Mem} {creates : List ℕ → Bool} {fl : Flags}
    (hg : rpack image line r.packet = (g, p)) :
    recTurn image creates fl r line = match r.state with
      | .R => rinit fl (r.reads p) g
      | .F => rfile creates fl (r.reads p) g
      | .D => rdata image fl (r.reads p) g
      | _ => (r.reads p, []) := by
  unfold recTurn
  rw [hg]
  rfl

lemma Stage.reads (h : Stage cfg files r pks) (p : Mem) : Stage cfg files (r.reads p) pks := h

/-- The receiver gives up. -/
lemma Stage.quit (h : Stage cfg files r pks) (hC : r.state ≠ .C) (q : Receiver)
    (hq : q.state = .A) (hcl : q.closed = r.closed) (hfp : q.fp = r.fp) :
    Stage cfg files q pks := by
  have hne := h.ne hC
  have hgot := h.got
  simp only [Stage, hq, hcl, hfp]
  exact ⟨hne, hgot⟩

lemma recv_noise (h : Stage cfg files r pks) (hp : Known r.par) (hc : Clean cfg.image r.packet)
    (hn : r.n = ((m % 64 : ℕ) : ℤ)) (hC : r.state ≠ .C) (hA : r.state ≠ .A)
    (hl : Noise cfg.image (∃ f ∈ files, f.text = none) line) :
    Recvs cfg files m pks new r (recTurn cfg.image cfg.creates cfg.rcv r line) := by
  have hclean : Clean cfg.image (rpack cfg.image line r.packet).2 := hc.rpack hl.1
  obtain ⟨g, p, hg⟩ : ∃ g p, rpack cfg.image line r.packet = (g, p) := ⟨_, _, rfl⟩
  rw [hg] at hclean
  rw [recTurn_eq hg]
  obtain ⟨ans, hans, hback⟩ : ∃ ans, (r.reads p).nak cfg.rcv = [ans] ∧ Back cfg.image m ans :=
    back_nak hp hn cfg.rcv
  rcases hl.2 with hnone | ⟨hwhy, hd, l, hcomes, hE⟩
  · obtain rfl : g = none := by
      have := hnone r.packet
      rwa [hg] at this
    have hstay : Recvs cfg files m pks new r (r.reads p, (r.reads p).nak cfg.rcv) :=
      ⟨hp, hclean, Or.inl ⟨rfl, rfl, h.reads p, ans, hans, hback⟩⟩
    split
    · exact hstay
    · exact hstay
    · exact hstay
    · rename_i h1 h2 h3
      cases hs : r.state <;> simp_all
  · obtain rfl : g = some hd := by
      have := hcomes.1.2 r.packet
      rw [hg] at this
      exact (Prod.mk.inj this).1
    have hquit : Recvs cfg files m pks new r ({ r.reads p with state := .A }, []) :=
      ⟨hp, hclean, Or.inr (Or.inr ⟨rfl, rfl, h.quit hC _ rfl rfl rfl,
        Or.inr (Or.inr (Or.inl hwhy)), by simp⟩)⟩
    split
    · simp only [rinit, hE]
      exact hquit
    · simp only [rfile, hE]
      exact hquit
    · simp only [rdata, hE]
      exact hquit
    · rename_i h1 h2 h3
      cases hs : r.state <;> simp_all

lemma prev_eq (hn : r.n = (((j + 1) % 64 : ℕ) : ℤ)) : r.prev = ((j % 64 : ℕ) : ℤ) := by
  unfold Receiver.prev
  rw [hn]
  split_ifs <;> omega

/-- A packet that has been had already. -/
lemma again_spec {num len : ℤ} (h : Stage cfg files r pks) (hp : Known r.par)
    (hc : Clean cfg.image r.packet) (hn : r.n = (((j + 1) % 64 : ℕ) : ℤ)) (hC : r.state ≠ .C)
    (hnum : num = ((j % 64 : ℕ) : ℤ)) (hlen : len = 0 ∨ len = 6)
    (h0 : j = 0 → slice r.packet 0 len.toNat = params) :
    Recvs cfg files (j + 1) pks new r (again cfg.rcv r num len) := by
  unfold again
  dsimp only
  rw [hnum, prev_eq hn]
  split_ifs with ht
  · exact ⟨hp, hc, Or.inr (Or.inr ⟨rfl, rfl, h.quit hC _ rfl rfl rfl,
      Or.inr (Or.inl (by dsimp only; omega)), by simp⟩)⟩
  · obtain ⟨line, hans, hback⟩ := @back_ack _ { r with oldtry := r.oldtry + 1 } _ hp hc cfg.rcv
      ((j % 64 : ℕ) : ℤ) _ rfl hlen h0
    exact ⟨hp, hc, Or.inl ⟨rfl, rfl, h, line, hans, hback⟩⟩
  · rename_i hne
    exact absurd rfl hne

/-- Reading alone changes nothing that counts. -/
lemma Recvs.of_reads {p : Mem} {out : Receiver × List (List ℕ)}
    (h : Recvs cfg files m pks new (r.reads p) out) : Recvs cfg files m pks new r out :=
  ⟨h.par, h.clean, h.does⟩

lemma spar_clean {p : Mem} (hc : Clean image p) : Clean image (spar p) := by
  have hp : ∀ c ∈ params, c < 128 ∧ c ≠ SOH := by decide
  exact hc.store fun c hcm => .of_lt (hp c hcm).1 (hp c hcm).2

/-- The receiver hears the packet before again. -/
lemma recv_again {pk : Pack} (h : Stage cfg files r pks) (hp : Known r.par)
    (hc : Clean cfg.image r.packet) (hn : r.n = (((j + 1) % 64 : ℕ) : ℤ)) (hC : r.state ≠ .C)
    (hA : r.state ≠ .A) (hafter : After pk.type r.state) (h0 : j = 0 → pk.type = 'S')
    (hl : Comes cfg.image line (pk.head j) pk.data) :
    Recvs cfg files (j + 1) pks new r (recTurn cfg.image cfg.creates cfg.rcv r line) := by
  have hclean : Clean cfg.image (rpack cfg.image line r.packet).2 := hc.rpack hl.2
  obtain ⟨p, hg⟩ : ∃ p, rpack cfg.image line r.packet = (some (pk.head j), p) :=
    ⟨_, hl.1.2 r.packet⟩
  rw [hg] at hclean
  rw [recTurn_eq hg]
  have hn' : (r.reads p).n = (((j + 1) % 64 : ℕ) : ℤ) := hn
  have hS : (r.reads p).state = r.state := rfl
  have hagain : ∀ len : ℤ, len = 0 ∨ len = 6 → j ≠ 0 → Recvs cfg files (j + 1) pks new r
      (again cfg.rcv (r.reads p) ((j % 64 : ℕ) : ℤ) len) := fun len hlen hj =>
    (again_spec (h.reads p) hp hclean hn' hC rfl hlen fun hz => absurd hz hj).of_reads
  rcases hafter with ⟨ht, hs⟩ | ⟨ht, hs⟩ | ⟨ht, hs⟩ | ⟨ht, hs⟩ | hs | hs
  -- the parameters again
  · have hspar : Recvs cfg files (j + 1) pks new r
        (again cfg.rcv { r.reads p with packet := spar p } ((j % 64 : ℕ) : ℤ) 6) := by
      have := @again_spec _ _ { r.reads p with packet := spar p } _ _ new
        ((j % 64 : ℕ) : ℤ) 6 h hp (spar_clean hclean) hn' hC rfl (Or.inr rfl)
        fun _ => slice_store p params
      exact ⟨this.par, this.clean, this.does⟩
    simp only [hs, rfile, Pack.head, ht]
    rw [prev_eq hn']
    split_ifs with hif
    · exact hspar
    · have htry : (r.reads p).oldtry > MAXTRY := by
        by_contra hle
        exact hif ⟨not_lt.mp hle, rfl⟩
      rw [again, if_pos htry]
      exact ⟨hp, hclean, Or.inr (Or.inr ⟨rfl, rfl, h.quit hC _ rfl rfl rfl,
        Or.inr (Or.inl (by dsimp only; omega)), by simp⟩)⟩
  · have hj : j ≠ 0 := fun hz => by
      rw [ht] at h0
      exact absurd (h0 hz) (by decide)
    simp only [hs, rdata, Pack.head, ht]
    exact hagain 0 (Or.inl rfl) hj
  · have hj : j ≠ 0 := fun hz => by
      rw [ht] at h0
      exact absurd (h0 hz) (by decide)
    simp only [hs, rdata, Pack.head, ht]
    rw [if_pos (by rw [hn']; omega)]
    exact hagain 6 (Or.inr rfl) hj
  · have hj : j ≠ 0 := fun hz => by
      rw [ht] at h0
      exact absurd (h0 hz) (by decide)
    simp only [hs, rfile, Pack.head, ht]
    exact hagain 0 (Or.inl rfl) hj
  · exact absurd hs hC
  · exact absurd hs hA

/-- A string that has been read is what `strcpy` copies. -/
lemma str_read (buf : Mem) {l : List ℕ} (hlen : l.length < 50) (h0 : ∀ c ∈ l, c ≠ 0) :
    str (Function.update (store buf 0 l) (l.length : ℤ) 0) = l := by
  obtain ⟨k, hk⟩ : ∃ k, 2 * MAXPACKSIZ.toNat = l.length + (k + 1) :=
    ⟨187 - l.length, by have : 2 * MAXPACKSIZ.toNat = 188 := rfl; omega⟩
  have hsplit : ∀ (data : Mem) (i : ℤ) (a b : ℕ),
      slice data i (a + b) = slice data i a ++ slice data (i + a) b := by
    intro data i a b
    rw [slice, List.range_add, List.map_append, List.map_map]
    simp only [slice]
    congr 1
    refine List.map_congr_left fun c _ => ?_
    simp only [Function.comp, Nat.cast_add, add_assoc]
  rw [str, hk, hsplit, slice_terminated, slice_succ, zero_add, Function.update_self,
    List.takeWhile_append_of_pos (by simpa using h0), List.takeWhile_cons_of_neg (by simp),
    List.append_nil]

lemma getElem_of_drop {α : Type*} {l : List α} {i : ℕ} {a : α} {t : List α}
    (h : l.drop i = a :: t) : l[i]? = some a ∧ l.drop (i + 1) = t := by
  refine ⟨?_, ?_⟩
  · rw [← List.head?_drop, h, List.head?_cons]
  · rw [← List.tail_drop, h, List.tail_cons]

section Heads

variable {h : Head} {fl : Flags} {creates : List ℕ → Bool}

lemma rinit_S (ht : h.type = 'S') : rinit fl r (some h) =
    ({ ({ r with par := rpar r.packet, packet := spar r.packet } : Receiver).bump with
        state := .F },
      ({ r with par := rpar r.packet, packet := spar r.packet } : Receiver).ack fl r.n 6) := by
  simp only [rinit, ht]

lemma rfile_F (ht : h.type = 'F') (hnum : h.num = r.n) : rfile creates fl r (some h) =
    if creates (filnam1 fl r.packet) then
      ({ r.bump with fp := some (filnam1 fl r.packet, []), state := .D }, r.ack fl r.n 0)
    else
      ({ r with state := .A }, error fl r.par r.n "Cannot create " (filnam1 fl r.packet)) := by
  simp only [rfile, ht]
  rw [if_neg (not_not.mpr hnum)]

lemma rfile_B (ht : h.type = 'B') (hnum : h.num = r.n) :
    rfile creates fl r (some h) = ({ r with state := .C }, r.ack fl r.n 0) := by
  simp only [rfile, ht]
  rw [if_neg (not_not.mpr hnum)]

lemma rfile_E (ht : h.type = 'E') :
    rfile creates fl r (some h) = ({ r with state := .A }, []) := by
  simp only [rfile, ht]
  rfl

lemma rdata_D (ht : h.type = 'D') (hnum : h.num = r.n) : rdata image fl r (some h) =
    ({ r.bump with
        fp := r.fp.map fun p => (p.1, p.2 ++ bufemp image r.packet h.len)
        state := .D }, r.ack fl r.n 0) := by
  simp only [rdata, ht]
  rw [if_neg (not_not.mpr hnum)]

lemma rdata_Z (ht : h.type = 'Z') (hnum : h.num = r.n) : rdata image fl r (some h) =
    ({ r with
        fp := none
        closed := r.closed ++ r.fp.toList
        n := (r.n + 1) % 64
        state := .F }, r.ack fl r.n 0) := by
  simp only [rdata, ht]
  rw [if_neg (not_not.mpr hnum)]

end Heads

/-- The receiver hears the packet it waits for, and has read it so. -/
structure News (cfg : Config) (files : List Outfile) (m : ℕ) (pk : Pack) (rest : List Pack)
    (r : Receiver) : Prop where
  stage : Stage cfg files r (pk :: rest)
  par : Known r.par
  clean : Clean cfg.image r.packet
  n : r.n = ((m % 64 : ℕ) : ℤ)
  first : r.state = .R ↔ m = 0
  packet : ∃ buf, r.packet = Function.update (store buf 0 pk.data) pk.len 0

section New

variable {pk : Pack} {rest : List Pack}

lemma News.num (h : News cfg files m pk rest r) : (pk.head m).num = r.n := h.n.symm

lemma News.bump (h : News cfg files m pk rest r) : (r.n + 1) % 64 = (((m + 1) % 64 : ℕ) : ℤ) := by
  rw [h.n]
  omega

lemma News.ack (h : News cfg files m pk rest r) (hR : r.state ≠ .R) :
    ∃ ans, r.ack cfg.rcv r.n 0 = [ans] ∧ Back cfg.image (m + 1) ans :=
  back_ack h.par h.clean cfg.rcv h.n (Or.inl rfl) fun hz => absurd (h.first.mpr hz) hR

lemma news_R (h : News cfg files m pk rest r) (hs : r.state = .R) :
    Recvs cfg files m (pk :: rest) True r (rinit cfg.rcv r (some (pk.head m))) := by
  obtain ⟨hcl, hfp, q, he, hfiles⟩ : r.closed = [] ∧ r.fp = none ∧ ∃ q, pk :: rest = initPack :: q ∧
      Files cfg files q := by simpa only [Stage, hs] using h.stage
  obtain ⟨rfl, rfl⟩ := List.cons.inj he
  obtain ⟨buf, hbuf⟩ := h.packet
  have hrp : rpar r.packet = learnt := hbuf ▸ rpar_params _ _ (by decide)
  obtain ⟨ans, hans, hback⟩ := @back_ack _
    { r with par := rpar r.packet, packet := spar r.packet } _ (.inr hrp)
    (spar_clean h.clean) cfg.rcv r.n 6 h.n (Or.inr rfl)
    fun _ => slice_store r.packet params
  rw [rinit_S rfl]
  refine ⟨.inr hrp, spar_clean h.clean, Or.inr (Or.inl ⟨trivial, fun _ => h.bump,
    by simp, by simp, _, _, ans, rfl, ?_,
    Or.inl ⟨rfl, rfl⟩, hans, hback⟩)⟩
  simp only [Stage]
  exact ⟨0, hcl, hfp, hfiles⟩

lemma news_F (h : News cfg files m pk rest r) (hs : r.state = .F) (hok : ∀ f ∈ files, f.Ok) :
    Recvs cfg files m (pk :: rest) True r
      (rfile cfg.creates cfg.rcv r (some (pk.head m))) := by
  obtain ⟨i, hcl, hfp, hfiles⟩ : ∃ i, r.closed = (files.take i).map (sent cfg) ∧ r.fp = none ∧
      Files cfg (files.drop i) (pk :: rest) := by simpa only [Stage, hs] using h.stage
  obtain ⟨ans, hans, hback⟩ := h.ack (by rw [hs]; decide)
  have hquit : ∀ out : List (List ℕ), (∃ f ∈ files, f.text = none) ∨
      (∃ f ∈ files, cfg.creates (outname cfg f) = false) →
      (∀ line ∈ out, (∃ f ∈ files, cfg.creates (outname cfg f) = false) ∧
        ∃ h l, Comes cfg.image line h l ∧ h.type = 'E') →
      Recvs cfg files m (pk :: rest) True r ({ r with state := .A }, out) := fun out hwhy hout =>
    ⟨h.par, h.clean, Or.inr (Or.inr ⟨rfl, rfl,
      h.stage.quit (by rw [hs]; decide) _ rfl rfl rfl, Or.inr (Or.inr hwhy), hout⟩)⟩
  rcases hd : files.drop i with _ | ⟨f, fs⟩
  -- no more files
  · rw [hd] at hfiles
    cases hfiles
    rw [rfile_B rfl h.num]
    refine ⟨h.par, h.clean, Or.inr (Or.inl ⟨trivial, fun hne => absurd rfl hne,
      by simp, by simp, _, _, ans, rfl, ?_,
      Or.inr (Or.inr (Or.inr (Or.inr (Or.inl rfl)))), hans, hback⟩)⟩
    simp only [Stage]
    rw [List.take_of_length_le (List.drop_eq_nil_iff.mp hd)] at hcl
    exact ⟨hcl, hfp⟩
  · obtain ⟨hget, hdrop⟩ := getElem_of_drop hd
    have hmem : f ∈ files := List.mem_of_getElem? hget
    rw [hd] at hfiles
    cases hfiles with
    | closed hnone =>
      rw [rfile_E rfl]
      exact hquit [] (Or.inl ⟨f, hmem, hnone⟩) (by simp)
    | @file _ _ text ds pks' ht hbody hrest =>
      have hname := newfilnam_ok cfg.snd (hok f hmem)
      obtain ⟨buf, hbuf⟩ := h.packet
      have hstr : str r.packet = newfilnam cfg.snd f.filnamo := hbuf ▸ str_read _ hname.1
        fun c hcm => by have := hname.2 c hcm; omega
      have hout : filnam1 cfg.rcv r.packet = outname cfg f := by
        simp only [filnam1, outname, hstr]
      rw [rfile_F rfl h.num, hout]
      split_ifs with hcr
      · refine ⟨h.par, h.clean, Or.inr (Or.inl ⟨trivial, fun _ => h.bump,
          by simp, by simp, _, _, ans, rfl, ?_,
          Or.inr (Or.inl ⟨rfl, rfl⟩), hans, hback⟩)⟩
        simp only [Stage]
        exact ⟨i, f, [], text, ds, pks', hget, hcl, ht, rfl, rfl, Or.inl hbody, hdrop ▸ hrest⟩
      · have hwhy : ∃ f ∈ files, cfg.creates (outname cfg f) = false :=
          ⟨f, hmem, by simpa using hcr⟩
        refine hquit _ (Or.inr hwhy) fun ln hln => ⟨hwhy, ?_⟩
        rw [h.n] at hln
        exact error_spec h.par cfg.rcv m (by decide) (outname_ok (hok f hmem)) ln hln

/-- Data have been written. -/
lemma news_data {i : ℕ} {g : Outfile} {ts us txt : List ℕ} {ds q : List Pack}
    (h : News cfg files m pk (ds ++ eofPack :: q) r) (hs : r.state = .D) (ht : pk.type = 'D')
    (hget : files[i]? = some g) (hcl : r.closed = (files.take i).map (sent cfg))
    (htext : g.text = some (ts ++ (us ++ txt)))
    (hfp : r.fp = some (outname cfg g, ts.flatMap (arrives cfg.image)))
    (hus : bufemp cfg.image r.packet pk.len = us.flatMap (arrives cfg.image))
    (hds : Datas cfg.image txt ds) (hq : Files cfg (files.drop (i + 1)) q) :
    Recvs cfg files m (pk :: (ds ++ eofPack :: q)) True r
      (rdata cfg.image cfg.rcv r (some (pk.head m))) := by
  obtain ⟨ans, hans, hback⟩ := h.ack (by rw [hs]; decide)
  rw [rdata_D ht h.num]
  refine ⟨h.par, h.clean, Or.inr (Or.inl ⟨trivial, fun _ => h.bump,
    by simp, by simp, _, _, ans, rfl, ?_,
    Or.inr (Or.inr (Or.inl ⟨ht, rfl⟩)), hans, hback⟩)⟩
  simp only [Stage]
  refine ⟨i, g, ts ++ us, txt, ds, q, hget, hcl, ?_, ?_, rfl, Or.inr hds, hq⟩
  · rw [htext, List.append_assoc]
  · rw [hfp, Option.map_some, List.flatMap_append]
    simp only [Pack.head, hus]

lemma news_D (h : News cfg files m pk rest r) (hs : r.state = .D) :
    Recvs cfg files m (pk :: rest) True r (rdata cfg.image cfg.rcv r (some (pk.head m))) := by
  obtain ⟨i, g, ts, txt, ds, q, hget, hcl, ht, hfp, he, hds, hq⟩ : ∃ i g ts rest' ds q,
      files[i]? = some g ∧ r.closed = (files.take i).map (sent cfg) ∧
      g.text = some (ts ++ rest') ∧ r.fp = some (outname cfg g, ts.flatMap (arrives cfg.image)) ∧
      pk :: rest = ds ++ eofPack :: q ∧
      (Body cfg.image rest' ds ∨ Datas cfg.image rest' ds) ∧
      Files cfg (files.drop (i + 1)) q := by simpa only [Stage, hs] using h.stage
  obtain ⟨buf, hbuf⟩ := h.packet
  have hdatas : Datas cfg.image txt ds → Recvs cfg files m (pk :: rest) True r
      (rdata cfg.image cfg.rcv r (some (pk.head m))) := by
    intro hds
    cases hds with
    -- the end of the file
    | eof =>
      obtain ⟨rfl, rfl⟩ := List.cons.inj he
      obtain ⟨ans, hans, hback⟩ := h.ack (by rw [hs]; decide)
      rw [rdata_Z rfl h.num]
      refine ⟨h.par, h.clean, Or.inr (Or.inl ⟨trivial, fun _ => h.bump,
        by simp, by simp, _, _, ans, rfl, ?_,
        Or.inr (Or.inr (Or.inr (Or.inl ⟨rfl, rfl⟩))), hans, hback⟩)⟩
      refine ⟨i + 1, ?_, rfl, hq⟩
      dsimp only
      rw [hcl, hfp, List.take_add_one, hget, List.map_append]
      simp [sent, ht]
    | @more us rest' l ds' hne hbytes hl hlt hfill hrest =>
      rw [List.cons_append] at he
      obtain ⟨rfl, rfl⟩ := List.cons.inj he
      refine news_data h hs rfl hget hcl ht hfp ?_ hrest hq
      refine empty_quoted hbytes ?_ le_rfl
      rw [← hl, hbuf, sub_zero, Int.toNat_natCast, slice_terminated]
  rcases hds with hbody | hds
  · cases hbody with
    | empty =>
      obtain ⟨rfl, rfl⟩ := List.cons.inj he
      exact @news_data _ _ _ _ _ _ _ _ [] [] [] _ h hs rfl hget hcl ht hfp rfl .eof hq
    | text _ hds => exact hdatas hds
  · exact hdatas hds

/-- The receiver hears the packet it waits for. -/
lemma recv_new (h : Stage cfg files r (pk :: rest)) (hp : Known r.par)
    (hc : Clean cfg.image r.packet) (hn : r.n = ((m % 64 : ℕ) : ℤ)) (hC : r.state ≠ .C)
    (hA : r.state ≠ .A) (hR : r.state = .R ↔ m = 0) (hok : ∀ f ∈ files, f.Ok)
    (hl : Comes cfg.image line (pk.head m) pk.data) :
    Recvs cfg files m (pk :: rest) True r (recTurn cfg.image cfg.creates cfg.rcv r line) := by
  have hclean : Clean cfg.image (rpack cfg.image line r.packet).2 := hc.rpack hl.2
  have hg := hl.1.2 r.packet
  rw [hg] at hclean
  have hnews : News cfg files m pk rest
      (r.reads (Function.update (store r.packet 0 pk.data) (pk.head m).len 0)) :=
    ⟨h.reads _, hp, hclean, hn, hR, _, rfl⟩
  rw [recTurn_eq hg]
  split
  · rename_i hs
    exact (news_R hnews hs).of_reads
  · rename_i hs
    exact (news_F hnews hs hok).of_reads
  · rename_i hs
    exact (news_D hnews hs).of_reads
  · rename_i h1 h2 h3
    cases hs : r.state <;> simp_all

end New

end Receiving

/-! ### Both sides -/

/-- A packet on the way to the receiver. -/
def There (image : Bool) (script : List Pack) (j : ℕ) (line : List ℕ) : Prop :=
  ∃ pk, script[j]? = some pk ∧ Comes image line (pk.head j) pk.data

/-- What holds of both sides and the line in every state. -/
structure Inv (cfg : Config) (files : List Outfile) (script : List Pack) (k m : ℕ)
    (there back : List ℕ) (l : Link) : Prop where
  window : StopWait k m there back
  there : Carries (There cfg.image script)
    (Noise cfg.image (∃ f ∈ files, f.text = none)) there l.there
  back : Carries (Back cfg.image)
    (Noise cfg.image (∃ f ∈ files, cfg.creates (outname cfg f) = false)) back l.back
  sn : l.snd.n = ((k % 64 : ℕ) : ℤ)
  todo : Todo cfg l.snd (script.drop k)
  waits : l.snd.waits = true → l.snd.state ≠ .C ∧ l.snd.state ≠ .A ∧
    (l.snd.state = .F → l.snd.fp ≠ none)
  first : l.snd.state = .S → k = 0
  mine : ∀ f ∈ l.snd.file :: l.snd.filelist, f ∈ files
  gave : l.snd.state = .A → MAXTRY < l.snd.numtry ∨ (∃ f ∈ files, f.text = none) ∨
    ∃ f ∈ files, cfg.creates (outname cfg f) = false
  rn : l.rcv.state ≠ .C → l.rcv.n = ((m % 64 : ℕ) : ℤ)
  stage : Stage cfg files l.rcv (script.drop m)
  par : Known l.rcv.par
  clean : Clean cfg.image l.rcv.packet
  rfirst : l.rcv.state ≠ .A → (l.rcv.state = .R ↔ m = 0)
  after : ∀ j pk, j + 1 = m → script[j]? = some pk → After pk.type l.rcv.state
  quit : l.rcv.state = .A → MAXTRY < l.rcv.numtry ∨ MAXTRY < l.rcv.oldtry ∨
    (∃ f ∈ files, f.text = none) ∨ ∃ f ∈ files, cfg.creates (outname cfg f) = false

section Steps

variable {script : List Pack} {k m : ℕ} {there back : List ℕ} {l l' : Link}

lemma inv_start {f : Outfile} {fs : List Outfile} {r : List Pack} (h : Files cfg (f :: fs) r) :
    Inv cfg (f :: fs) (initPack :: r) 0 0 [] [] (start f fs) where
  window := .start
  there := .nil
  back := .nil
  sn := rfl
  todo := ⟨r, rfl, h, rfl, rfl⟩
  waits := fun hw => by cases hw
  first := fun _ => rfl
  mine := fun _ hf => hf
  gave := fun hs => by cases hs
  rn := fun _ => rfl
  stage := ⟨rfl, rfl, r, rfl, h⟩
  par := .inl rfl
  clean := fun _ => good_zero
  rfirst := fun _ => ⟨fun _ => rfl, fun _ => rfl⟩
  after := fun j pk hj => by omega
  quit := fun hs => by cases hs

lemma Todo.open {s : Sender} {pks : List Pack} (h : Todo cfg s pks) (hw : s.waits = true) :
    s.state = .F → s.fp ≠ none := by
  intro hs
  obtain ⟨_, _, ⟨_, hw'⟩ | ⟨text, hfp, _⟩⟩ : Files cfg (s.file :: s.filelist) pks ∧
      s.par = learnt ∧ (s.fp = none ∧ s.waits = false ∨
        ∃ text, s.fp = some text ∧ s.file.text = some text) := by simpa only [Todo, hs] using h
  · rw [hw] at hw'
    cases hw'
  · rw [hfp]
    simp

lemma drop_head {α : Type*} {s : List α} {k : ℕ} {a : α} {t : List α} (h : s.drop k = a :: t) :
    s[k]? = some a ∧ s.drop (k + 1) = t := getElem_of_drop h

lemma Inv.send (h : Inv cfg files script k m there back l) (hok : ∀ f ∈ files, f.Ok)
    (hw : l.snd.waits = false) (hC : l.snd.state ≠ .C) (hA : l.snd.state ≠ .A) :
    ∃ there', Inv cfg files script k m there' back
      { l with snd := (sendTurn cfg.snd l.snd).1
               there := l.there ++ (sendTurn cfg.snd l.snd).2 } := by
  have hs := sendTurn_spec h.todo h.sn hw hC hA (hok _ (h.mine _ List.mem_cons_self))
  have hmine : ∀ f ∈ (sendTurn cfg.snd l.snd).1.file :: (sendTurn cfg.snd l.snd).1.filelist,
      f ∈ files := by
    rw [hs.file, hs.filelist]
    exact h.mine
  have hsn := hs.n.trans h.sn
  rcases hs.does with ⟨hst, hw', hwhy, hlines⟩ | ⟨hst, htodo, pk, rest, line, hpk, hl, hcomes⟩
  · have hwhy' : MAXTRY < (sendTurn cfg.snd l.snd).1.numtry ∨ (∃ f ∈ files, f.text = none) := by
      rcases hwhy with hwhy | hwhy
      · exact Or.inl hwhy
      · exact Or.inr ⟨_, h.mine _ List.mem_cons_self, hwhy⟩
    have hthere := h.there.append_noise fun line hline =>
      have hE := hlines line hline
      (⟨hE.2.choose_spec.choose_spec.1.2,
        Or.inr ⟨⟨_, h.mine _ List.mem_cons_self, hE.1⟩, hE.2⟩⟩ : Noise cfg.image _ line)
    refine ⟨there, { h with
      there := hthere
      sn := hsn
      todo := by simp only [Todo, hst]
      waits := fun hh => by rw [hw'] at hh; cases hh
      first := fun hh => by rw [hst] at hh; cases hh
      mine := hmine
      gave := fun _ => ?_ }⟩
    rcases hwhy' with hh | hh
    · exact Or.inl hh
    · exact Or.inr (Or.inl hh)
  · refine ⟨there ++ [k], { h with
      window := h.window.send
      there := ?_
      sn := hsn
      todo := htodo
      waits := fun hh => ⟨by rwa [hst], by rwa [hst], htodo.open hh⟩
      first := fun hh => h.first (hst ▸ hh)
      mine := hmine
      gave := fun hh => absurd (hst ▸ hh) hA }⟩
    rw [hl]
    exact h.there.snoc ⟨pk, (drop_head hpk).1, hcomes⟩

/-- What one side reads is what comes first, or nothing. -/
lemma next_cases {P : ℕ → List ℕ → Prop} {N : List ℕ → Prop} {timeout : Bool}
    {js : List ℕ} {q q' : List (List ℕ)} {line : List ℕ} (h : Carries P N js q)
    (hn : next timeout q = some (line, q')) (hN : N []) :
    N line ∧ Carries P N js q' ∨ ∃ j js', js = j :: js' ∧ P j line ∧ Carries P N js' q' := by
  unfold next at hn
  cases timeout with
  | true =>
    obtain ⟨rfl, rfl⟩ := Prod.mk.inj (Option.some.inj hn)
    exact Or.inl ⟨hN, h⟩
  | false =>
    cases q with
    | nil => cases hn
    | cons c q =>
      obtain ⟨rfl, rfl⟩ := Prod.mk.inj (Option.some.inj hn)
      exact h.uncons

lemma noise_nil (image : Bool) (why : Prop) : Noise image why [] :=
  ⟨by simp, Or.inl fun _ => rfl⟩

lemma Inv.heard {back' : List ℕ} {q : List (List ℕ)} {s' : Sender} {new : Prop}
    (h : Inv cfg files script k m there back l)
    (hs : Heard cfg k (script.drop k)
      (∃ f ∈ files, cfg.creates (outname cfg f) = false) l.snd s' new)
    (hA : l.snd.state ≠ .A) (hw : StopWait k m there back')
    (hn : new → StopWait (k + 1) m there back')
    (hq : Carries (Back cfg.image)
      (Noise cfg.image (∃ f ∈ files, cfg.creates (outname cfg f) = false)) back' q) :
    ∃ k', Inv cfg files script k' m there back' { l with snd := s', back := q } := by
  have hmine : ∀ f ∈ s'.file :: s'.filelist, f ∈ files := fun f hf => h.mine f (hs.files f hf)
  have hwaits : s'.waits = true → s'.state ≠ .C ∧ s'.state ≠ .A ∧
      (s'.state = .F → s'.fp ≠ none) := fun hh => by rw [hs.waits] at hh; cases hh
  rcases hs.does with ⟨hsn, hst, htodo⟩ | ⟨hst, hsn, hwhy⟩ | ⟨hnew, hS, hsn, pk, rest, hpk, htodo⟩
  · exact ⟨k, { h with
      window := hw
      back := hq
      sn := hsn.trans h.sn
      todo := htodo
      waits := hwaits
      first := fun hh => h.first (hst ▸ hh)
      mine := hmine
      gave := fun hh => absurd (hst ▸ hh) hA }⟩
  · exact ⟨k, { h with
      window := hw
      back := hq
      sn := hsn.trans h.sn
      todo := by simp only [Todo, hst]
      waits := hwaits
      first := fun hh => by rw [hst] at hh; cases hh
      mine := hmine
      gave := fun _ => Or.inr (Or.inr hwhy) }⟩
  · have htodo' : Todo cfg s' (script.drop (k + 1)) := by rwa [(drop_head hpk).2]
    refine ⟨k + 1, { h with
      window := hn hnew
      back := hq
      sn := hsn
      todo := htodo'
      waits := hwaits
      first := fun hh => absurd hh hS.1
      mine := hmine
      gave := fun hh => absurd hh hS.2 }⟩

lemma Inv.hear {timeout : Bool} {line : List ℕ} {q : List (List ℕ)}
    (h : Inv cfg files script k m there back l) (hw : l.snd.waits = true)
    (hq : next timeout l.back = some (line, q)) :
    ∃ k' back', Inv cfg files script k' m there back'
      { l with snd := hearTurn cfg.image l.snd line, back := q } := by
  obtain ⟨hC, hA, hF⟩ := h.waits hw
  rcases next_cases h.back hq (noise_nil _ _) with ⟨hN, hq'⟩ | ⟨e, back', rfl, hB, hq'⟩
  · obtain ⟨k', hk'⟩ := h.heard (hear_noise (k := k) h.todo hF hC hA hN False) hA h.window
      (fun hf => hf.elim) hq'
    exact ⟨k', back, hk'⟩
  · have hlose := h.window.lose_back (List.sublist_cons_self e back')
    rcases h.window.heard with rfl | rfl
    · obtain ⟨k', hk'⟩ := h.heard (hear_new (k := k) h.todo hF hC hA h.sn h.first hB True.intro) hA
        hlose (fun _ => h.window.next) hq'
      exact ⟨k', back', hk'⟩
    · obtain ⟨k', hk'⟩ := h.heard (hear_old h.todo hF h.sn hB False) hA hlose
        (fun hf => hf.elim) hq'
      exact ⟨k', back', hk'⟩

lemma Inv.received {there' : List ℕ} {q : List (List ℕ)} {out : Receiver × List (List ℕ)}
    {new : Prop} (h : Inv cfg files script k m there back l)
    (hs : Recvs cfg files m (script.drop m) new l.rcv out) (hC : l.rcv.state ≠ .C)
    (hA : l.rcv.state ≠ .A) (hw : StopWait k m there' back)
    (hn : new → StopWait k (m + 1) there' back)
    (hq : Carries (There cfg.image script)
      (Noise cfg.image (∃ f ∈ files, f.text = none)) there' q) :
    ∃ m' back', Inv cfg files script k m' there' back'
      { l with rcv := out.1, there := q, back := l.back ++ out.2 } := by
  have hR := h.rfirst hA
  rcases hs.does with ⟨hrn, hst, hstage, line, hline, hback⟩ |
    ⟨hnew, hrn, hnR, hnA, pk, rest, line, hpk, hstage, hafter, hline, hback⟩ |
    ⟨hst, hrn, hstage, hwhy, hlines⟩
  · refine ⟨m, back ++ [m], { h with
      window := hw.answer
      there := hq
      back := ?_
      rn := fun _ => hrn.trans (h.rn hC)
      stage := hstage
      par := hs.par
      clean := hs.clean
      rfirst := fun _ => hst ▸ hR
      after := fun j pk hj hpk => hst ▸ h.after j pk hj hpk
      quit := fun hh => absurd (hst ▸ hh) hA }⟩
    dsimp only
    rw [hline]
    exact h.back.snoc hback
  · obtain ⟨hget, hdrop⟩ := drop_head hpk
    refine ⟨m + 1, back ++ [m + 1], { h with
      window := (hn hnew).answer
      there := hq
      back := ?_
      rn := hrn
      stage := by rwa [hdrop]
      par := hs.par
      clean := hs.clean
      rfirst := fun _ => ⟨fun hh => absurd hh hnR, fun hh => absurd hh (Nat.succ_ne_zero m)⟩
      after := fun j pk' hj hpk' => ?_
      quit := fun hh => absurd hh hnA }⟩
    · dsimp only
      rw [hline]
      exact h.back.snoc hback
    · obtain rfl : j = m := by omega
      rw [hget] at hpk'
      exact Option.some.inj hpk' ▸ hafter
  · refine ⟨m, back, { h with
      window := hw
      there := hq
      back := h.back.append_noise fun line hline => ?_
      rn := fun _ => hrn.trans (h.rn hC)
      stage := hstage
      par := hs.par
      clean := hs.clean
      rfirst := fun hh => absurd hst hh
      after := fun j pk hj hpk => Or.inr (Or.inr (Or.inr (Or.inr (Or.inr hst))))
      quit := fun _ => hwhy }⟩
    have hE := hlines line hline
    exact ⟨hE.2.choose_spec.choose_spec.1.2, Or.inr hE⟩

lemma Inv.recv {timeout : Bool} {line : List ℕ} {q : List (List ℕ)}
    (h : Inv cfg files script k m there back l) (hok : ∀ f ∈ files, f.Ok)
    (hinit : ∀ pk, script[0]? = some pk → pk.type = 'S')
    (hC : l.rcv.state ≠ .C) (hA : l.rcv.state ≠ .A)
    (hq : next timeout l.there = some (line, q)) :
    ∃ m' there' back', Inv cfg files script k m' there' back'
      { l with
        rcv := (recTurn cfg.image cfg.creates cfg.rcv l.rcv line).1
        there := q
        back := l.back ++ (recTurn cfg.image cfg.creates cfg.rcv l.rcv line).2 } := by
  rcases next_cases h.there hq (noise_nil _ _) with ⟨hN, hq'⟩ | ⟨j, there', rfl, hB, hq'⟩
  · have hrecv : Recvs cfg files m (script.drop m) False l.rcv _ :=
      recv_noise h.stage h.par h.clean (h.rn hC) hC hA hN
    obtain ⟨m', back', hm'⟩ := h.received hrecv hC hA h.window (fun hf => hf.elim) hq'
    exact ⟨m', there, back', hm'⟩
  · have hlose := h.window.lose_there (List.sublist_cons_self j there')
    obtain ⟨pk, hget, hcomes⟩ := hB
    rcases h.window.comes with rfl | rfl
    · obtain ⟨rest, hdrop⟩ : ∃ rest, script.drop j = pk :: rest := by
        obtain ⟨hlt, he⟩ := List.getElem?_eq_some_iff.mp hget
        exact ⟨_, he ▸ List.drop_eq_getElem_cons hlt⟩
      have hstage := h.stage
      rw [hdrop] at hstage
      have hrecv := recv_new hstage h.par h.clean (h.rn hC) hC hA (h.rfirst hA) hok hcomes
      rw [← hdrop] at hrecv
      obtain ⟨m', back', hm'⟩ := h.received hrecv hC hA hlose (fun _ => h.window.accept) hq'
      exact ⟨m', there', back', hm'⟩
    · have hrecv : Recvs cfg files (j + 1) (script.drop (j + 1)) False l.rcv _ :=
        recv_again h.stage h.par h.clean (h.rn hC) hC hA (h.after j pk rfl hget)
          (fun hz => hinit pk (hz ▸ hget)) hcomes
      obtain ⟨m', back', hm'⟩ := h.received hrecv hC hA hlose (fun hf => hf.elim) hq'
      exact ⟨m', there', back', hm'⟩

lemma damaged_noise {line : List ℕ} (h : damaged image line = true) (why : Prop) :
    Noise image why line := by
  obtain ⟨h1, h2⟩ := Bool.and_eq_true _ _ ▸ h
  refine ⟨fun c hc => by simpa using List.all_eq_true.mp h2 c hc, Or.inl fun buf => ?_⟩
  rw [rpack_fst buf fun _ => 0]
  simpa using h1

/-- Every step keeps it. -/
lemma Inv.step {act : Act} (h : Inv cfg files script k m there back l)
    (hok : ∀ f ∈ files, f.Ok) (hinit : ∀ pk, script[0]? = some pk → pk.type = 'S')
    (hs : step cfg l act = some l') :
    ∃ k' m' there' back', Inv cfg files script k' m' there' back' l' := by
  cases act with
  | send =>
    rw [Kermit.step] at hs
    split_ifs at hs with hif
    obtain rfl := Option.some.inj hs
    simp only [not_or] at hif
    obtain ⟨there', h'⟩ := h.send hok (by simpa using hif.1) hif.2.1 hif.2.2
    exact ⟨k, m, there', back, h'⟩
  | hear timeout =>
    rw [Kermit.step] at hs
    split_ifs at hs with hw
    obtain ⟨⟨line, q⟩, hq, rfl⟩ := Option.map_eq_some_iff.mp hs
    obtain ⟨k', back', h'⟩ := h.hear hw hq
    exact ⟨k', m, there, back', h'⟩
  | recv timeout =>
    rw [Kermit.step] at hs
    split_ifs at hs with hif htry
    · obtain rfl := Option.some.inj hs
      obtain ⟨hC, hA⟩ := not_or.mp hif
      exact ⟨k, m, there, back, { h with
        rn := fun _ => h.rn hC
        stage := h.stage.quit hC _ rfl rfl rfl
        rfirst := fun hh => absurd rfl hh
        after := fun j pk _ _ => Or.inr (Or.inr (Or.inr (Or.inr (Or.inr rfl))))
        quit := fun _ => Or.inl (by dsimp only; omega) }⟩
    · obtain ⟨⟨line, q⟩, hq, rfl⟩ := Option.map_eq_some_iff.mp hs
      obtain ⟨hC, hA⟩ := not_or.mp hif
      obtain ⟨m', there', back', h'⟩ := h.recv hok hinit hC hA hq
      exact ⟨k, m', there', back', h'⟩
  | loseThere i =>
    obtain rfl := Option.some.inj hs
    obtain ⟨there', hsub, hc⟩ := h.there.erase i
    exact ⟨k, m, there', back, { h with window := h.window.lose_there hsub, there := hc }⟩
  | loseBack i =>
    obtain rfl := Option.some.inj hs
    obtain ⟨back', hsub, hc⟩ := h.back.erase i
    exact ⟨k, m, there, back', { h with window := h.window.lose_back hsub, back := hc }⟩
  | damageThere i line =>
    rw [Kermit.step] at hs
    split_ifs at hs with hd
    obtain rfl := Option.some.inj hs
    obtain ⟨there', hsub, hc⟩ := h.there.damage (damaged_noise hd _) i
    exact ⟨k, m, there', back, { h with window := h.window.lose_there hsub, there := hc }⟩
  | damageBack i line =>
    rw [Kermit.step] at hs
    split_ifs at hs with hd
    obtain rfl := Option.some.inj hs
    obtain ⟨back', hsub, hc⟩ := h.back.damage (damaged_noise hd _) i
    exact ⟨k, m, there, back', { h with window := h.window.lose_back hsub, back := hc }⟩

/-- Where one side has come to its end, all files have arrived. -/
lemma Inv.done (h : Inv cfg files script k m there back l)
    (hC : l.snd.state = .C ∨ l.rcv.state = .C) :
    l.rcv.closed = files.map (sent cfg) ∧ l.rcv.fp = none := by
  have hstage := h.stage
  have hrcv : l.rcv.state = .C := by
    rcases hC with hs | hs
    · have hnil : script.drop k = [] := by simpa only [Todo, hs] using h.todo
      have hm : script.drop m = [] :=
        List.drop_eq_nil_iff.mpr ((List.drop_eq_nil_iff.mp hnil).trans h.window.le)
      by_contra hne
      exact hstage.ne hne hm
    · exact hs
  simpa only [Stage, hrcv] using hstage

end Steps

/-- **`kermit` delivers**: in every run, whatever the line loses or damages and whenever a side
stops waiting, the receiver has some first files, as they were sent, and perhaps the beginning of the next
one; it has all of them where either side is complete; and a side gives up only if it has tried too
often, or if some file cannot be opened or made. -/
theorem kermit_delivers {cfg : Config} {f : Outfile} {fs : List Outfile}
    (hok : ∀ g ∈ f :: fs, g.Ok) {acts : List Act} {l : Link}
    (h : Run (fun l a l' => step cfg l a = some l') (start f fs) acts l) :
    Got cfg (f :: fs) l.rcv.closed l.rcv.fp ∧
      (l.snd.state = .C ∨ l.rcv.state = .C →
        l.rcv.closed = (f :: fs).map (sent cfg) ∧ l.rcv.fp = none) ∧
      (l.rcv.state = .A → MAXTRY < l.rcv.numtry ∨ MAXTRY < l.rcv.oldtry ∨
        (∃ g ∈ f :: fs, g.text = none) ∨ ∃ g ∈ f :: fs, cfg.creates (outname cfg g) = false) ∧
      (l.snd.state = .A → MAXTRY < l.snd.numtry ∨
        (∃ g ∈ f :: fs, g.text = none) ∨ ∃ g ∈ f :: fs, cfg.creates (outname cfg g) = false) := by
  obtain ⟨r, hr⟩ := files_exists cfg (f :: fs) hok
  have hinv : ∃ k m there back, Inv cfg (f :: fs) (initPack :: r) k m there back l := by
    refine h.invariant (I := fun l => ∃ k m there back,
      Inv cfg (f :: fs) (initPack :: r) k m there back l) ?_ ⟨0, 0, [], [], inv_start hr⟩
    rintro l a l' ⟨k, m, there, back, hi⟩ hs
    exact hi.step hok (fun pk hpk => by obtain rfl := Option.some.inj hpk; rfl) hs
  obtain ⟨k, m, there, back, hi⟩ := hinv
  exact ⟨hi.stage.got, hi.done, hi.quit, hi.gave⟩

/-- A file of one line, where the first acknowledgement is lost. -/
theorem kermit_delivers_line :
    let flags : Flags := ⟨false, false, false, true, false⟩
    let cfg : Config := ⟨false, flags, flags, fun _ => true⟩
    let f : Outfile := ⟨[97], [97], some [104, 105, 10]⟩
    let round : List Act := [.send, .recv false, .hear false]
    let acts := [.send, .recv false, .loseBack 0, .hear true] ++
      (round ++ round ++ round ++ round ++ round)
    let l := acts.foldl (fun l a => (step cfg l a).getD l) (start f [])
    (∀ g ∈ [f], g.Ok) ∧ l.snd.state = .C ∧
      l.rcv.closed = [([97], [104, 105, 10])] ∧ l.rcv.fp = none := by
  intro flags cfg f round acts l
  have hok : ∀ g ∈ [f], g.Ok := by
    intro g hg
    obtain rfl := List.mem_singleton.mp hg
    refine ⟨by decide, by decide, fun text ht => ?_⟩
    obtain rfl := Option.mem_some_iff.mp ht
    decide
  have hrun : Run (fun l a l' => step cfg l a = some l') (start f []) acts l := by
    refine @Run.along _ _ _ (fun l a => (step cfg l a).isSome = true) _
      (fun l a h => ?_) (start f []) acts (by decide +kernel)
    obtain ⟨l', hl'⟩ := Option.isSome_iff_exists.mp h
    simp [hl']
  have hC : l.snd.state = .C := by decide +kernel
  exact ⟨hok, hC, (kermit_delivers hok hrun).2.1 (Or.inl hC)⟩

end Coherent.Kermit
