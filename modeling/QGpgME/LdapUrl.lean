import QGpgME.QtString
import QGpgME.Separators
import Mathlib.Tactic.SplitIfs

/-! The option values that configure LDAP servers, read as URLs and written back. -/
namespace QGpgME.LdapUrl

/-- -1 stands for no port. -/
abbrev Port := { n : Int // -1 ≤ n ∧ n ≤ 65535 }

/-- The components that QUrl stores and returns. An empty component is one that is not set. -/
@[ext] structure QUrl where
  scheme : QString
  host : QString
  port : Port
  userName : QString
  password : QString
  path : QString
  query : QString
  fragment : QString
deriving DecidableEq

def noPort : Port := ⟨-1, by decide⟩

/-- `QUrl::setPort` -/
def toPort (n : Int) : Port := if h : -1 ≤ n ∧ n ≤ 65535 then ⟨n, h⟩ else noPort

def hexValue (c : UInt8) : UInt8 :=
  if 48 ≤ c && c ≤ 57 then c - 48
  else if 97 ≤ c && c ≤ 102 then c - 97 + 10
  else if 65 ≤ c && c ≤ 70 then c - 65 + 10
  else c

/-- `QByteArray::fromPercentEncoding` -/
def fromPercentEncoding : QByteArray → QByteArray
  | [] => []
  | c :: rest =>
    if c = 37 then
      match rest with
      | a :: b :: rest => (hexValue a <<< 4 ||| hexValue b) :: fromPercentEncoding rest
      | rest => c :: fromPercentEncoding rest
    else c :: fromPercentEncoding rest

def urlpartEncode (str : QString) : QString :=
  (str.replace '%' "%25".toList).replace ':' "%3a".toList

def urlpartDecode (str : QString) : QString :=
  QString.fromUtf8 (fromPercentEncoding (QString.toLatin1 str))

/-- The argument type of options for LDAP servers. -/
def ldapServerType : Nat := 33

/-- The first items of the colon-separated form, the flags only where there are six. -/
structure LdapItems where
  host : QString
  port : QString
  userName : QString
  password : QString
  baseDn : QString
  flags : Option QString

/-- None where the value is a URL or has too few items. -/
def ldapItems (str : QString) : Option LdapItems :=
  if "ldap://".toList.isPrefixOf str || "ldaps://".toList.isPrefixOf str then none
  else
    let items := (if "ldap:".toList.isPrefixOf str then str.drop 5 else str).splitOn ':'
    match items with
    | host :: port :: userName :: password :: baseDn :: flags =>
      some ⟨host, port, userName, password, baseDn, flags.head?⟩
    | _ => none

/-- A malformed port is ignored. -/
def LdapItems.toUrl (items : LdapItems) : QUrl where
  scheme := "ldap".toList
  host := urlpartDecode items.host
  port := if items.port = [] then noPort else ((QString.toInt items.port).map toPort).getD noPort
  userName := urlpartDecode items.userName
  password := urlpartDecode items.password
  path := []
  query := urlpartDecode items.baseDn
  fragment := (items.flags.map urlpartDecode).getD []

/-- `ofString` is the parser of QUrl. -/
def parseURL (ofString : QString → QUrl) (mRealArgType : Nat) (str : QString) : QUrl :=
  if mRealArgType = ldapServerType then
    match ldapItems str with
    | some items => items.toUrl
    | none => ofString str
  else ofString str

def portToString (port : Port) : QString := if port.1 ≠ -1 then QString.number port.1 else []

def splitURL (mRealArgType : Nat) (url : QUrl) : QString :=
  if mRealArgType = ldapServerType then
    urlpartEncode url.host ++ [':'] ++ portToString url.port ++ [':'] ++
      urlpartEncode url.userName ++ [':'] ++ urlpartEncode url.password ++ [':'] ++
      urlpartEncode url.query ++ [':'] ++ urlpartEncode url.fragment
  else url.path

/-- The texts that are stored for the URLs of an LDAP option, as C strings. -/
def setURLValueList (urls : List QUrl) : List QByteArray :=
  urls.map fun url => (QString.toUtf8 (splitURL ldapServerType url)).takeWhile (· ≠ 0)

/-- The URLs that are read from the texts of an LDAP option. -/
def urlValueList (ofString : QString → QUrl) (values : List QByteArray) : List QUrl :=
  values.map fun value => parseURL ofString ldapServerType (QString.fromUtf8 value)

section encoding

theorem urlpartEncode_cons (c : Char) (s : QString) :
    urlpartEncode (c :: s) = urlpartEncode [c] ++ urlpartEncode s := by
  simp [urlpartEncode, QString.replace]

theorem urlpartEncode_char (c : Char) :
    urlpartEncode [c] =
      if c = '%' then "%25".toList else if c = ':' then "%3a".toList else [c] := by
  split_ifs with h1 h2
  · rw [h1]
    rfl
  · rw [h2]
    rfl
  · simp [urlpartEncode, QString.replace, h1, h2]

theorem colon_not_mem_urlpartEncode (s : QString) : ':' ∉ urlpartEncode s := by
  induction s with
  | nil => simp [urlpartEncode, QString.replace]
  | cons c s ih =>
    rw [urlpartEncode_cons, List.mem_append, not_or]
    refine ⟨?_, ih⟩
    rw [urlpartEncode_char]
    split_ifs with h1 h2
    · decide
    · decide
    · simpa using Ne.symm h2

theorem fromPercentEncoding_cons {b : UInt8} (h : b ≠ 37) (rest : QByteArray) :
    fromPercentEncoding (b :: rest) = b :: fromPercentEncoding rest := by
  rw [fromPercentEncoding.eq_def]
  simp [h]

/-- The two escapes are undone before the bytes are read as UTF-8. -/
theorem fromPercentEncoding_urlpartEncode (s : QString) :
    fromPercentEncoding (QString.toLatin1 (urlpartEncode s)) = QString.toLatin1 s := by
  have happ : ∀ u v : QString, QString.toLatin1 (u ++ v) =
      QString.toLatin1 u ++ QString.toLatin1 v := by
    intro u v
    simp [QString.toLatin1]
  induction s with
  | nil => rfl
  | cons c s ih =>
    have hcons : QString.toLatin1 (c :: s) = QString.toLatin1 [c] ++ QString.toLatin1 s :=
      happ [c] s
    rw [urlpartEncode_cons, happ, hcons, urlpartEncode_char]
    split_ifs with h1 h2
    · have hbytes : QString.toLatin1 "%25".toList = [37, 50, 53] := by decide
      rw [h1, hbytes]
      simp only [List.cons_append, List.nil_append, fromPercentEncoding, if_true, ih]
      rfl
    · have hbytes : QString.toLatin1 "%3a".toList = [37, 51, 97] := by decide
      rw [h2, hbytes]
      simp only [List.cons_append, List.nil_append, fromPercentEncoding, if_true, ih]
      rfl
    · by_cases hc : c.toNat < 256
      · have hne : UInt8.ofNat c.toNat ≠ 37 := by
          intro h
          rw [← UInt8.toNat_inj, UInt8.toNat_ofNat', Nat.mod_eq_of_lt (by simpa using hc)] at h
          exact h1 (Char.toNat_inj.mp h)
        have hbytes : QString.toLatin1 [c] = [UInt8.ofNat c.toNat] := by
          simp [QString.toLatin1, hc]
        rw [hbytes, List.singleton_append, fromPercentEncoding_cons hne, ih]
        rfl
      · have hq : (63 : UInt8) ≠ 37 := by decide
        by_cases hp : c.toNat < 0x10000
        · have hbytes : QString.toLatin1 [c] = [63] := by
            simp [QString.toLatin1, hc, hp]
          rw [hbytes, List.singleton_append, fromPercentEncoding_cons hq, ih]
          rfl
        · have hbytes : QString.toLatin1 [c] = [63, 63] := by
            simp [QString.toLatin1, hc, hp]
          rw [hbytes, List.cons_append, List.singleton_append, fromPercentEncoding_cons hq,
            fromPercentEncoding_cons hq, ih]
          rfl

/-- A component survives encoding and decoding exactly when it is ASCII. -/
theorem urlpartDecode_urlpartEncode_iff {s : QString} :
    urlpartDecode (urlpartEncode s) = s ↔ ∀ c ∈ s, Utf8.Ascii c := by
  rw [urlpartDecode, fromPercentEncoding_urlpartEncode, QString.fromUtf8_toLatin1_iff]

/-- A component can be carried: the colon-separated form can hold its encoding, which gives it
back. -/
def Carried (s : QString) : Prop := urlpartDecode (urlpartEncode s) = s ∧ ':' ∉ urlpartEncode s

instance (s : QString) : Decidable (Carried s) := inferInstanceAs (Decidable (_ ∧ _))

theorem carried_iff (s : QString) : Carried s ↔ ∀ c ∈ s, Utf8.Ascii c := by
  rw [Carried, urlpartDecode_urlpartEncode_iff]
  constructor
  · intro h
    exact h.1
  · intro h
    exact ⟨h, colon_not_mem_urlpartEncode s⟩

/-- A character of Latin-1 becomes a byte that is not valid UTF-8, any other one a question
mark. -/
theorem not_carried_accent :
    urlpartDecode (urlpartEncode "é".toList) = ['\uFFFD'] ∧
      urlpartDecode (urlpartEncode "€".toList) = "?".toList ∧
      ¬Carried "é".toList ∧ ¬Carried "€".toList := by
  decide +kernel

theorem urlpartEncode_eq_self {s : QString} (h : ∀ c ∈ s, c ≠ '%' ∧ c ≠ ':') :
    urlpartEncode s = s := by
  induction s with
  | nil => simp [urlpartEncode, QString.replace]
  | cons c s ih =>
    obtain ⟨h1, h2⟩ := h c (by simp)
    rw [urlpartEncode_cons, ih fun d hd => h d (by simp [hd]), urlpartEncode_char, if_neg h1,
      if_neg h2]
    rfl

theorem percent_mem_urlpartEncode {s : QString} {c : Char} (hc : c ∈ s)
    (h : c = '%' ∨ c = ':') : '%' ∈ urlpartEncode s := by
  induction s with
  | nil => simp at hc
  | cons d s ih =>
    rw [urlpartEncode_cons, List.mem_append]
    cases List.mem_cons.mp hc with
    | inl hd =>
      refine Or.inl ?_
      rw [urlpartEncode_char, ← hd]
      cases h with
      | inl h => simp [h]
      | inr h => simp [h]
    | inr hs => exact Or.inr (ih hs)

theorem urlpartEncode_eq_iff {s t : QString} (ht : ∀ c ∈ t, c ≠ '%' ∧ c ≠ ':') :
    urlpartEncode s = t ↔ s = t := by
  constructor
  · intro h
    by_cases hs : ∀ c ∈ s, c ≠ '%' ∧ c ≠ ':'
    · rwa [urlpartEncode_eq_self hs] at h
    · simp only [not_forall, not_and_or, not_not] at hs
      obtain ⟨c, hc, hcc⟩ := hs
      have hm := percent_mem_urlpartEncode hc hcc
      rw [h] at hm
      exact absurd rfl (ht '%' hm).1
  · intro h
    rw [h, urlpartEncode_eq_self ht]

end encoding

section ports

theorem port_digits {port : Port} {c : Char} (h : c ∈ portToString port) :
    48 ≤ c.toNat ∧ c.toNat ≤ 57 := by
  have hpos : ¬port.1 < 0 := by
    intro hneg
    have hp : port.1 = -1 := by have := port.2.1; omega
    simp [portToString, hp] at h
  have hne : port.1 ≠ -1 := by omega
  rw [portToString, if_pos hne, QString.number, if_neg hpos] at h
  have hd := Nat.isDigit_of_mem_toDigits (by decide) (by decide) h
  simpa [Char.isDigit, UInt32.le_iff_toNat_le] using hd

theorem port_read_back (port : Port) :
    (if portToString port = [] then noPort
      else ((QString.toInt (portToString port)).map toPort).getD noPort) = port := by
  by_cases hp : port.1 = -1
  · have hempty : portToString port = [] := by simp [portToString, hp]
    rw [if_pos hempty]
    exact Subtype.ext hp.symm
  · obtain ⟨n, hn⟩ : ∃ n : Nat, port.1 = n := by
      have := port.2.1
      exact ⟨port.1.toNat, by omega⟩
    have hle := port.2.2
    have hint := QString.toInt_number (n := n) (by omega)
    have hne : QString.number n ≠ [] := by
      rw [QString.number_natCast]
      exact Nat.toDigits_ne_nil
    have hrange : -1 ≤ (n : Int) ∧ (n : Int) ≤ 65535 := by omega
    rw [portToString, if_pos hp, hn, if_neg hne, hint]
    simp only [Option.map_some, Option.getD_some, toPort, dif_pos hrange]
    exact Subtype.ext hn.symm

end ports

section stored

/-- What is left of a text in a C string. -/
def cut (s : QString) : QString := s.takeWhile fun c => c ≠ '\x00'

theorem nul_not_mem_cut (s : QString) : '\x00' ∉ cut s := by
  intro h
  simpa using List.mem_takeWhile_imp h

theorem cut_eq_self {s : QString} (h : '\x00' ∉ s) : cut s = s :=
  List.takeWhile_eq_self_iff.mpr fun c hc => by simpa using fun h0 : c = '\x00' => h (h0 ▸ hc)

theorem cut_toUtf8 (s : QString) :
    (QString.toUtf8 s).takeWhile (· ≠ 0) = QString.toUtf8 (cut s) := by
  simp only [QString.toUtf8]
  induction s with
  | nil => rfl
  | cons c s ih =>
    rw [Utf8.encode_cons]
    by_cases hc : c = '\x00'
    · rw [hc]
      rfl
    · have hzero : ∀ b ∈ String.utf8EncodeChar c, decide (b ≠ 0) = true := by
        intro b hb
        have hnot := (Utf8.mem_encode_ascii (a := '\x00') (s := [c]) (by decide)).not.mpr
          (by simpa using Ne.symm hc)
        simpa using fun h0 : b = 0 => hnot (by simpa [← h0] using hb)
      rw [List.takeWhile_append_of_pos hzero, ih, cut, cut, List.takeWhile_cons,
        if_pos (by simpa using hc), Utf8.encode_cons]

/-- Texts in their escaped form, with colons between them. -/
def joined (ys : List QString) : QString := [':'].intercalate (ys.map urlpartEncode)

theorem joined_cons {ys : List QString} (h : ys ≠ []) (y : QString) :
    joined (y :: ys) = urlpartEncode y ++ ':' :: joined ys := by
  rw [joined, List.map_cons, List.intercalate_cons_of_ne_nil (by simpa using h), List.append_assoc]
  rfl

theorem joined_singleton (y : QString) : joined [y] = urlpartEncode y :=
  List.intercalate_singleton

theorem splitOn_joined {ys : List QString} (h : ys ≠ []) :
    (joined ys).splitOn ':' = ys.map urlpartEncode := by
  refine List.splitOn_intercalate ':' ?_ (by simpa using h)
  intro item hitem
  obtain ⟨y, -, rfl⟩ := List.mem_map.mp hitem
  exact colon_not_mem_urlpartEncode y

/-- Escaping leaves the end of a C string where it is. -/
theorem cut_urlpartEncode (s rest : QString) :
    cut (urlpartEncode s ++ rest) =
      if '\x00' ∈ s then urlpartEncode (cut s) else urlpartEncode s ++ cut rest := by
  induction s with
  | nil => rfl
  | cons c s ih =>
    by_cases hc : c = '\x00'
    · rw [hc, if_pos (by simp)]
      rfl
    · have hplain : ∀ d ∈ urlpartEncode [c], decide (d ≠ '\x00') = true := by
        intro d hd
        rw [urlpartEncode_char] at hd
        split_ifs at hd with h1 h2
        · exact (by decide : ∀ d ∈ "%25".toList, decide (d ≠ '\x00') = true) d hd
        · exact (by decide : ∀ d ∈ "%3a".toList, decide (d ≠ '\x00') = true) d hd
        · rw [List.mem_singleton.mp hd]
          simpa using hc
      have hmem : '\x00' ∈ c :: s ↔ '\x00' ∈ s := by
        simp [Ne.symm hc]
      have hcut : cut (c :: s) = c :: cut s := by
        rw [cut, List.takeWhile_cons, if_pos (by simpa using hc)]
        rfl
      rw [urlpartEncode_cons c s, List.append_assoc, cut, List.takeWhile_append_of_pos hplain,
        ← cut, ih, hcut, urlpartEncode_cons c (cut s)]
      simp only [hmem]
      split
      · rfl
      · rw [List.append_assoc]

/-- A cut text is still made of escaped texts, none of which has the character it is cut at. -/
theorem cut_joined {ys : List QString} (h : ys ≠ []) :
    ∃ zs, zs ≠ [] ∧ (∀ z ∈ zs, '\x00' ∉ z) ∧ cut (joined ys) = joined zs := by
  induction ys with
  | nil => exact absurd rfl h
  | cons y ys ih =>
    by_cases hys : ys = []
    · refine ⟨[cut y], List.cons_ne_nil _ _, by simpa using nul_not_mem_cut y, ?_⟩
      have hend := cut_urlpartEncode y []
      rw [List.append_nil] at hend
      rw [hys, joined_singleton, joined_singleton, hend]
      split
      · rfl
      · next hy => rw [cut_eq_self hy, cut, List.takeWhile_nil, List.append_nil]
    · obtain ⟨zs, hne, hplain, hzs⟩ := ih hys
      rw [joined_cons hys, cut_urlpartEncode]
      split
      · exact ⟨[cut y], List.cons_ne_nil _ _, by simpa using nul_not_mem_cut y,
          (joined_singleton _).symm⟩
      · next hy =>
        refine ⟨y :: zs, List.cons_ne_nil _ _, List.forall_mem_cons.mpr ⟨hy, hplain⟩, ?_⟩
        rw [joined_cons hne, ← hzs]
        rfl

theorem skipMark_urlpartEncode {rest : QString} (h : QString.skipMark rest = rest) (z : QString) :
    QString.skipMark (urlpartEncode z ++ rest) = urlpartEncode (QString.skipMark z) ++ rest := by
  cases z with
  | nil => exact h
  | cons c z =>
    rw [urlpartEncode_cons, urlpartEncode_char]
    split_ifs with h1 h2
    · have hmark : QString.skipMark (c :: z) = c :: z := by
        rw [h1, QString.skipMark, if_neg (by decide)]
      rw [hmark, urlpartEncode_cons, urlpartEncode_char, if_pos h1]
      rfl
    · have hmark : QString.skipMark (c :: z) = c :: z := by
        rw [h2, QString.skipMark, if_neg (by decide)]
      rw [hmark, urlpartEncode_cons, urlpartEncode_char, if_neg h1, if_pos h2]
      rfl
    · simp only [List.cons_append, QString.skipMark]
      split
      · rfl
      · rw [urlpartEncode_cons, urlpartEncode_char, if_neg h1, if_neg h2]
        rfl

/-- A byte order mark in front is one in front of the first text. -/
theorem skipMark_joined (z : QString) (zs : List QString) :
    QString.skipMark (joined (z :: zs)) = joined (QString.skipMark z :: zs) := by
  by_cases hzs : zs = []
  · have hend := skipMark_urlpartEncode (rfl : QString.skipMark [] = []) z
    rw [List.append_nil, List.append_nil] at hend
    rw [hzs, joined_singleton, joined_singleton, hend]
  · rw [joined_cons hzs, joined_cons hzs, skipMark_urlpartEncode]
    rfl

/-- Escaped texts bring out no other escape than the two. -/
theorem escapedNul_urlpartEncode {s rest : QString}
    (h : "%00".toList <:+: urlpartEncode s ++ rest) : "%00".toList <:+: rest := by
  have hskip : ∀ {t : QString}, "%00".toList <:+: '%' :: '2' :: '5' :: t ∨
      "%00".toList <:+: '%' :: '3' :: 'a' :: t → "%00".toList <:+: t := by
    intro t ht
    simpa [List.infix_cons_iff] using ht
  induction s with
  | nil => exact h
  | cons c s ih =>
    rw [urlpartEncode_cons, urlpartEncode_char, List.append_assoc] at h
    refine ih ?_
    split_ifs at h with h1 h2
    · exact hskip (Or.inl h)
    · exact hskip (Or.inr h)
    · rw [List.singleton_append, List.infix_cons_iff] at h
      refine h.resolve_left fun hprefix => ?_
      exact h1 (List.cons_prefix_cons.mp hprefix).1.symm

theorem escapedNul_joined (zs : List QString) : ¬"%00".toList <:+: joined zs := by
  induction zs with
  | nil => simp [joined]
  | cons z zs ih =>
    intro h
    by_cases hzs : zs = []
    · rw [hzs, joined_singleton, ← List.append_nil (urlpartEncode z)] at h
      exact absurd (escapedNul_urlpartEncode h) (by simp)
    · rw [joined_cons hzs] at h
      have hrest := escapedNul_urlpartEncode h
      rw [List.infix_cons_iff] at hrest
      refine ih (hrest.resolve_left fun hprefix => ?_)
      exact absurd (List.cons_prefix_cons.mp hprefix).1 (by decide)

theorem nul_not_mem_urlpartEncode {s : QString} (h : '\x00' ∉ s) : '\x00' ∉ urlpartEncode s := by
  have hcut := cut_urlpartEncode s []
  rw [List.append_nil, if_neg h] at hcut
  have hnot := nul_not_mem_cut (urlpartEncode s)
  rwa [hcut, cut, List.takeWhile_nil, List.append_nil] at hnot

theorem nul_not_mem_joined {zs : List QString} (h : ∀ z ∈ zs, '\x00' ∉ z) :
    '\x00' ∉ joined zs := by
  intro hm
  obtain hcolon | ⟨item, hitem, hm⟩ := Separators.mem_intercalate hm
  · exact absurd hcolon (by decide)
  · obtain ⟨z, hz, rfl⟩ := List.mem_map.mp hitem
    exact nul_not_mem_urlpartEncode (h z hz) hm

end stored

section roundtrip
variable (ofString : QString → QUrl) (u : QUrl)

def ldap : QString := "ldap".toList

/-- The items behind the host. -/
def otherItems : List QString :=
  [portToString u.port, urlpartEncode u.userName, urlpartEncode u.password,
    urlpartEncode u.query, urlpartEncode u.fragment]

theorem colon_not_mem_otherItems : ∀ item ∈ otherItems u, ':' ∉ item := by
  have hport : ':' ∉ portToString u.port := by
    intro h
    exact absurd (port_digits h).2 (by decide)
  simp [otherItems, hport, colon_not_mem_urlpartEncode]

theorem splitURL_eq :
    splitURL ldapServerType u =
      urlpartEncode u.host ++ ':' :: [':'].intercalate (otherItems u) := by
  simp [splitURL, otherItems, List.intercalate]

theorem takeWhile_colon {x : QString} (h : ':' ∉ x) (t : QString) :
    (x ++ ':' :: t).takeWhile (fun c => c ≠ ':') = x := by
  rw [List.takeWhile_append_of_pos]
  · simp
  · intro c hc
    simpa using fun hcc : c = ':' => h (hcc ▸ hc)

/-- Two strings with a colon agree up to it and behind it. -/
theorem colon_split {x y s t : QString} (hx : ':' ∉ x) (hy : ':' ∉ y)
    (h : x ++ ':' :: s = y ++ ':' :: t) : x = y ∧ s = t := by
  have hxy : x = y := by rw [← takeWhile_colon hx s, h, takeWhile_colon hy t]
  subst hxy
  exact ⟨rfl, by simpa using h⟩

/-- What is written never looks like a URL. -/
theorem not_url_splitURL {x : QString} (hx : ':' ∉ x) (s : QString) :
    (x ++ ':' :: '/' :: s).isPrefixOf (splitURL ldapServerType u) = false := by
  by_contra hc
  have hprefix : (x ++ ':' :: '/' :: s) <+: splitURL ldapServerType u :=
    List.isPrefixOf_iff_prefix.mp (by simpa using hc)
  obtain ⟨t, ht⟩ := hprefix
  obtain ⟨r, hr⟩ : ∃ r, [':'].intercalate (otherItems u) = portToString u.port ++ ':' :: r :=
    ⟨_, by simp [otherItems, List.intercalate]; rfl⟩
  rw [splitURL_eq, List.append_assoc, hr] at ht
  obtain ⟨-, hrest⟩ := colon_split hx (colon_not_mem_urlpartEncode u.host) ht
  cases hp : portToString u.port with
  | nil => simp [hp] at hrest
  | cons c cs =>
    have hd := port_digits (c := c) (hp ▸ List.mem_cons_self)
    rw [hp] at hrest
    have hslash := (List.cons.inj hrest).1
    rw [← hslash] at hd
    exact absurd hd.1 (by decide)

theorem splitOn_items :
    (splitURL ldapServerType u).splitOn ':' = urlpartEncode u.host :: otherItems u := by
  have hall : ∀ item ∈ urlpartEncode u.host :: otherItems u, ':' ∉ item :=
    List.forall_mem_cons.mpr ⟨colon_not_mem_urlpartEncode u.host, colon_not_mem_otherItems u⟩
  have hsplit := List.splitOn_intercalate ':' hall (List.cons_ne_nil _ _)
  have hjoin : [':'].intercalate (urlpartEncode u.host :: otherItems u) =
      splitURL ldapServerType u := by
    rw [splitURL_eq, List.intercalate_cons_of_ne_nil (by simp [otherItems])]
    simp
  rw [hjoin] at hsplit
  exact hsplit

theorem ldap_plain : ∀ c ∈ ldap, c ≠ '%' ∧ c ≠ ':' := by decide

/-- The optional prefix is seen exactly where the host is called like it. -/
theorem prefix_iff :
    "ldap:".toList.isPrefixOf (splitURL ldapServerType u) = true ↔ u.host = ldap := by
  rw [List.isPrefixOf_iff_prefix, ← urlpartEncode_eq_iff ldap_plain, splitURL_eq]
  constructor
  · intro h
    obtain ⟨t, ht⟩ := h
    exact (colon_split (s := t) (by decide) (colon_not_mem_urlpartEncode u.host) ht).1.symm
  · intro h
    rw [h]
    exact ⟨_, rfl⟩

theorem ldapItems_splitURL :
    ldapItems (splitURL ldapServerType u) =
      if u.host = ldap then
        some ⟨portToString u.port, urlpartEncode u.userName, urlpartEncode u.password,
          urlpartEncode u.query, urlpartEncode u.fragment, none⟩
      else
        some ⟨urlpartEncode u.host, portToString u.port, urlpartEncode u.userName,
          urlpartEncode u.password, urlpartEncode u.query, some (urlpartEncode u.fragment)⟩ := by
  have h1 : "ldap://".toList.isPrefixOf (splitURL ldapServerType u) = false :=
    not_url_splitURL u (x := "ldap".toList) (by decide) ['/']
  have h2 : "ldaps://".toList.isPrefixOf (splitURL ldapServerType u) = false :=
    not_url_splitURL u (x := "ldaps".toList) (by decide) ['/']
  by_cases hhost : u.host = ldap
  · have hprefix := (prefix_iff u).mpr hhost
    have hrest : ((splitURL ldapServerType u).drop 5).splitOn ':' = otherItems u := by
      rw [splitURL_eq, (urlpartEncode_eq_iff ldap_plain).mpr hhost]
      exact List.splitOn_intercalate ':' (colon_not_mem_otherItems u) (List.cons_ne_nil _ _)
    rw [ldapItems, h1, h2, hprefix, if_pos hhost, if_pos rfl, hrest]
    rfl
  · have hprefix : "ldap:".toList.isPrefixOf (splitURL ldapServerType u) = false := by
      rw [← Bool.not_eq_true]
      exact fun h => hhost ((prefix_iff u).mp h)
    rw [ldapItems, h1, h2, hprefix, if_neg hhost, if_neg Bool.false_ne_true, splitOn_items]
    rfl

theorem portToString_plain (port : Port) : ∀ c ∈ portToString port, c ≠ '%' ∧ c ≠ ':' := by
  intro c hc
  have hd := port_digits hc
  constructor
  · intro h
    rw [h] at hd
    exact absurd hd.1 (by decide)
  · intro h
    rw [h] at hd
    exact absurd hd.2 (by decide)

theorem urlpartDecode_port (port : Port) :
    urlpartDecode (portToString port) = portToString port := by
  have hascii : ∀ c ∈ portToString port, Utf8.Ascii c := by
    intro c hc
    have hd := port_digits hc
    exact Nat.lt_of_le_of_lt hd.2 (by decide)
  have hdecode := urlpartDecode_urlpartEncode_iff.mpr hascii
  rw [urlpartEncode_eq_self (portToString_plain port)] at hdecode
  exact hdecode

theorem portToString_ne_ldap (port : Port) : portToString port ≠ ldap := by
  intro h
  have hmem : 'l' ∈ portToString port := by
    rw [h]
    decide
  exact absurd (port_digits hmem).2 (by decide)

/-- With a host of that name the port is taken for the host. -/
theorem parseURL_splitURL_ldap (h : u.host = ldap) :
    (parseURL ofString ldapServerType (splitURL ldapServerType u)).host =
      portToString u.port := by
  simp only [parseURL, if_true, ldapItems_splitURL, if_pos h, LdapItems.toUrl, urlpartDecode_port]

/-- With any other host each component is encoded and decoded. -/
theorem parseURL_splitURL (h : u.host ≠ ldap) :
    parseURL ofString ldapServerType (splitURL ldapServerType u) =
      ⟨ldap, urlpartDecode (urlpartEncode u.host), u.port,
        urlpartDecode (urlpartEncode u.userName), urlpartDecode (urlpartEncode u.password), [],
        urlpartDecode (urlpartEncode u.query), urlpartDecode (urlpartEncode u.fragment)⟩ := by
  simp only [parseURL, if_true, ldapItems_splitURL, if_neg h, LdapItems.toUrl, port_read_back,
    Option.map_some, Option.getD_some]
  rfl

/-- The components that are escaped when they are written. -/
def texts : List QString := [u.host, u.userName, u.password, u.query, u.fragment]

/-- What is relied on in the parser of QUrl: of a text that has U+0000 neither as it is nor escaped
it makes no component that has it. -/
def NulOnlyIfGiven : Prop := ∀ s : QString, '\x00' ∉ s → ¬"%00".toList <:+: s →
  ∀ f ∈ texts (ofString s), '\x00' ∉ f

/-- The characters that a stored component keeps. -/
def Kept (c : Char) : Prop := Utf8.Ascii c ∧ c ≠ '\x00'

/-- What the written form can represent. -/
structure Representable : Prop where
  scheme : u.scheme = ldap
  path : u.path = []
  host : u.host ≠ ldap
  kept : ∀ f ∈ texts u, ∀ c ∈ f, Kept c

theorem splitURL_joined : splitURL ldapServerType u =
    joined [u.host, portToString u.port, u.userName, u.password, u.query, u.fragment] := by
  have hport : urlpartEncode (portToString u.port) = portToString u.port :=
    urlpartEncode_eq_self (portToString_plain u.port)
  rw [splitURL_eq, joined_cons (List.cons_ne_nil _ _), joined, List.map_cons, hport]
  rfl

/-- What is read of what is stored is made of escaped texts without U+0000. -/
theorem read_joined : ∃ zs, zs ≠ [] ∧ (∀ z ∈ zs, '\x00' ∉ z) ∧
    QString.fromUtf8 ((QString.toUtf8 (splitURL ldapServerType u)).takeWhile (· ≠ 0)) =
      joined zs := by
  obtain ⟨zs, hne, hplain, hzs⟩ := cut_joined (List.cons_ne_nil u.host
    [portToString u.port, u.userName, u.password, u.query, u.fragment])
  obtain ⟨z, rest, rfl⟩ := List.exists_cons_of_ne_nil hne
  refine ⟨QString.skipMark z :: rest, List.cons_ne_nil _ _, ?_, ?_⟩
  · obtain ⟨hz, hrest⟩ := List.forall_mem_cons.mp hplain
    exact List.forall_mem_cons.mpr ⟨fun h => hz ((QString.skipMark_sublist z).subset h), hrest⟩
  · rw [cut_toUtf8, QString.fromUtf8_toUtf8, splitURL_joined, hzs, skipMark_joined]

theorem nul_not_mem_decoded {z : QString} (h : '\x00' ∉ z) :
    '\x00' ∉ urlpartDecode (urlpartEncode z) := by
  intro hm
  rw [urlpartDecode, fromPercentEncoding_urlpartEncode] at hm
  obtain ⟨c, hc, hzero⟩ := List.mem_flatMap.mp (QString.mem_of_mem_fromUtf8 (by decide) hm)
  split_ifs at hzero with h1 h2
  · have hnat := congrArg UInt8.toNat (List.mem_singleton.mp hzero)
    rw [UInt8.toNat_ofNat' (n := c.toNat), Nat.mod_eq_of_lt (by simpa using h1)] at hnat
    have hzero : '\x00' = c := Char.toNat_inj.mp hnat
    exact h (hzero ▸ hc)
  · exact absurd hzero (by decide)
  · exact absurd hzero (by decide)

theorem mem_splitOn_joined {zs : List QString} (h : zs ≠ []) :
    ∀ f ∈ (joined zs).splitOn ':', ∃ z ∈ zs, f = urlpartEncode z := by
  intro f hf
  rw [splitOn_joined h] at hf
  obtain ⟨z, hz, rfl⟩ := List.mem_map.mp hf
  exact ⟨z, hz, rfl⟩

/-- The optional prefix is the first of several escaped texts. -/
theorem drop_prefix_joined {zs : List QString}
    (h : "ldap:".toList.isPrefixOf (joined zs) = true) :
    ∃ z rest, zs = z :: rest ∧ rest ≠ [] ∧ (joined zs).drop 5 = joined rest := by
  obtain ⟨t, ht⟩ := List.isPrefixOf_iff_prefix.mp h
  cases zs with
  | nil => simp [joined] at ht
  | cons z rest =>
    by_cases hrest : rest = []
    · rw [hrest, joined_singleton] at ht
      exact absurd (by rw [← ht]; simp) (colon_not_mem_urlpartEncode z)
    · rw [joined_cons hrest] at ht
      have hsplit : "ldap".toList ++ ':' :: t = urlpartEncode z ++ ':' :: joined rest := ht
      obtain ⟨-, rfl⟩ := colon_split (by decide) (colon_not_mem_urlpartEncode z) hsplit
      rw [joined_cons hrest, ← ht]
      exact ⟨z, rest, rfl, hrest, rfl⟩

/-- The items of escaped texts are some of them. -/
theorem mem_ldapItems {zs : List QString} (h : zs ≠ []) {items : LdapItems}
    (hitems : ldapItems (joined zs) = some items) :
    ∀ f ∈ [items.host, items.userName, items.password, items.baseDn] ++ items.flags.toList,
      ∃ z ∈ zs, f = urlpartEncode z := by
  have hpieces : ∀ f ∈ (if "ldap:".toList.isPrefixOf (joined zs) then (joined zs).drop 5
      else joined zs).splitOn ':', ∃ z ∈ zs, f = urlpartEncode z := by
    split
    · next hprefix =>
      obtain ⟨z, rest, rfl, hrest, hdrop⟩ := drop_prefix_joined hprefix
      intro f hf
      rw [hdrop] at hf
      obtain ⟨z', hz', hf⟩ := mem_splitOn_joined hrest f hf
      exact ⟨z', List.mem_cons_of_mem z hz', hf⟩
    · exact mem_splitOn_joined h
  rw [ldapItems] at hitems
  split at hitems
  · simp at hitems
  · simp only at hitems
    split at hitems
    · next host port userName password baseDn flags hsplit =>
      rw [hsplit] at hpieces
      rw [← Option.some.inj hitems]
      intro f hf
      refine hpieces f ?_
      simp only [List.mem_append, List.mem_cons, List.not_mem_nil, or_false,
        Option.mem_toList] at hf ⊢
      obtain (hf | hf | hf | hf) | hf := hf
      · exact Or.inl hf
      · exact Or.inr (Or.inr (Or.inl hf))
      · exact Or.inr (Or.inr (Or.inr (Or.inl hf)))
      · exact Or.inr (Or.inr (Or.inr (Or.inr (Or.inl hf))))
      · exact Or.inr (Or.inr (Or.inr (Or.inr (Or.inr (List.mem_of_mem_head? hf)))))
    · simp at hitems

theorem nul_not_mem_parseURL (hurl : NulOnlyIfGiven ofString) {zs : List QString} (h : zs ≠ [])
    (hplain : ∀ z ∈ zs, '\x00' ∉ z) :
    ∀ f ∈ texts (parseURL ofString ldapServerType (joined zs)), '\x00' ∉ f := by
  cases hitems : ldapItems (joined zs) with
  | none =>
    simp only [parseURL, if_true, hitems]
    exact hurl _ (nul_not_mem_joined hplain) (escapedNul_joined zs)
  | some items =>
    have hread : ∀ f ∈ [items.host, items.userName, items.password, items.baseDn] ++
        items.flags.toList, '\x00' ∉ urlpartDecode f := by
      intro f hf
      obtain ⟨z, hz, rfl⟩ := mem_ldapItems h hitems f hf
      exact nul_not_mem_decoded (hplain z hz)
    simp only [List.forall_mem_append, List.forall_mem_cons] at hread
    obtain ⟨⟨h1, h2, h3, h4, -⟩, h5⟩ := hread
    have hfragment : '\x00' ∉ items.toUrl.fragment := by
      cases hf : items.flags with
      | none => simp [LdapItems.toUrl, hf]
      | some flags => simpa [LdapItems.toUrl, hf] using h5
    simp only [parseURL, if_true, hitems, texts, List.forall_mem_cons]
    exact ⟨h1, h2, h3, h4, hfragment, by simp⟩

/-- The writer's assertion holds, and what is stored of the URL is read back. -/
def ReadBack : Prop :=
  u.scheme = ldap ∧ urlValueList ofString (setURLValueList [u]) = [u]

/-- Where no component has U+0000, all that is written is stored, up to a mark in front. -/
theorem read_whole (h : ∀ f ∈ texts u, '\x00' ∉ f) :
    QString.fromUtf8 ((QString.toUtf8 (splitURL ldapServerType u)).takeWhile (· ≠ 0)) =
      splitURL ldapServerType { u with host := QString.skipMark u.host } := by
  simp only [texts, List.forall_mem_cons] at h
  obtain ⟨h1, h2, h3, h4, h5, -⟩ := h
  have hport : '\x00' ∉ portToString u.port := by
    intro hm
    exact absurd (port_digits hm).1 (by decide)
  have hplain : '\x00' ∉ splitURL ldapServerType u := by
    rw [splitURL_joined]
    refine nul_not_mem_joined ?_
    simp only [List.forall_mem_cons]
    exact ⟨h1, hport, h2, h3, h4, h5, by simp⟩
  rw [cut_toUtf8, cut_eq_self hplain, QString.fromUtf8_toUtf8, splitURL_joined, skipMark_joined,
    splitURL_joined]

theorem urlpartDecode_texts (u : QUrl) : (∀ f ∈ texts u, ∀ c ∈ f, Utf8.Ascii c) ↔
    urlpartDecode (urlpartEncode u.host) = u.host ∧
    urlpartDecode (urlpartEncode u.userName) = u.userName ∧
    urlpartDecode (urlpartEncode u.password) = u.password ∧
    urlpartDecode (urlpartEncode u.query) = u.query ∧
    urlpartDecode (urlpartEncode u.fragment) = u.fragment := by
  simp only [urlpartDecode_urlpartEncode_iff, texts, List.forall_mem_cons, List.not_mem_nil,
    false_imp_iff, implies_true, and_true]

/-- A mark in front of the host is not given back. -/
theorem host_not_marked {host : QString}
    (h : urlpartDecode (urlpartEncode (QString.skipMark host)) = host) :
    QString.skipMark host = host := by
  cases host with
  | nil => rfl
  | cons c s =>
    rw [QString.skipMark] at h ⊢
    split
    · next hc =>
      rw [if_pos hc, urlpartDecode, fromPercentEncoding_urlpartEncode] at h
      have hne : c ≠ '?' := by
        rw [hc]
        decide
      exact absurd h (QString.fromUtf8_toLatin1_ne_cons hne s)
    · rfl

theorem readBack_eq : ReadBack ofString u ↔ u.scheme = ldap ∧ parseURL ofString ldapServerType
    (QString.fromUtf8 ((QString.toUtf8 (splitURL ldapServerType u)).takeWhile (· ≠ 0))) = u := by
  simp [ReadBack, urlValueList, setURLValueList]

theorem readBack_iff (hurl : NulOnlyIfGiven ofString) : ReadBack ofString u ↔ Representable u := by
  rw [readBack_eq]
  constructor
  · intro h
    obtain ⟨hscheme, hback⟩ := h
    have hnul : ∀ f ∈ texts u, '\x00' ∉ f := by
      obtain ⟨zs, hne, hplain, hzs⟩ := read_joined u
      have hread := nul_not_mem_parseURL ofString hurl hne hplain
      rwa [← hzs, hback] at hread
    rw [read_whole u hnul] at hback
    by_cases hhost : QString.skipMark u.host = ldap
    · have hport := parseURL_splitURL_ldap ofString { u with host := u.host.skipMark } hhost
      rw [hback] at hport
      have hmem : 'l' ∈ u.host := by
        refine (QString.skipMark_sublist u.host).subset ?_
        rw [hhost]
        decide
      rw [hport] at hmem
      exact absurd (port_digits hmem).2 (by decide)
    · rw [parseURL_splitURL ofString _ hhost, QUrl.ext_iff] at hback
      obtain ⟨-, h1, -, h2, h3, hpath, h4, h5⟩ := hback
      have hmark : QString.skipMark u.host = u.host := host_not_marked h1
      simp only [hmark] at h1 hhost
      have hascii := (urlpartDecode_texts u).mpr ⟨h1, h2, h3, h4, h5⟩
      refine ⟨hscheme, hpath.symm, hhost, fun f hf c hc => ⟨hascii f hf c hc, ?_⟩⟩
      exact fun hzero => hnul f hf (hzero ▸ hc)
  · intro h
    have hascii : ∀ f ∈ texts u, ∀ c ∈ f, Utf8.Ascii c := fun f hf c hc => (h.kept f hf c hc).1
    have hnul : ∀ f ∈ texts u, '\x00' ∉ f := fun f hf hm => (h.kept f hf _ hm).2 rfl
    have hhost : QString.skipMark u.host = u.host := by
      rw [← QString.fromUtf8_toUtf8]
      exact QString.fromUtf8_encode_ascii (hascii u.host (by simp [texts]))
    obtain ⟨h1, h2, h3, h4, h5⟩ := (urlpartDecode_texts u).mp hascii
    refine ⟨h.scheme, ?_⟩
    rw [read_whole u hnul, hhost, parseURL_splitURL ofString u h.host, QUrl.ext_iff]
    exact ⟨h.scheme.symm, h1, rfl, h2, h3, h.path.symm, h4, h5⟩

/-- The condition on a configured value that corresponds to `Representable`. -/
def Lossless (v : QString) : Prop :=
  match ldapItems v with
  | some items => urlpartDecode items.host ≠ ldap ∧
      ∀ f ∈ [items.host, items.userName, items.password, items.baseDn] ++ items.flags.toList,
        ∀ c ∈ urlpartDecode f, Kept c
  | none => Representable (ofString v)

/-- Reading a configured value and writing it back unmodified is lossless, and what is read
has the scheme that the writer asserts, exactly under this condition. -/
theorem lossless_iff (hurl : NulOnlyIfGiven ofString) (v : QString) :
    ReadBack ofString (parseURL ofString ldapServerType v) ↔ Lossless ofString v := by
  rw [readBack_iff ofString _ hurl, Lossless]
  cases h : ldapItems v with
  | none => simp [parseURL, h]
  | some items =>
    have hurl : parseURL ofString ldapServerType v = items.toUrl := by
      simp [parseURL, h]
    have hflags : (∀ c ∈ items.toUrl.fragment, Kept c) ↔
        ∀ f ∈ items.flags.toList, ∀ c ∈ urlpartDecode f, Kept c := by
      cases hf : items.flags <;> simp [LdapItems.toUrl, hf]
    rw [hurl]
    constructor
    · intro hr
      refine ⟨hr.host, ?_⟩
      have hkept := hr.kept
      simp only [texts, List.forall_mem_cons] at hkept
      obtain ⟨h1, h2, h3, h4, h5, -⟩ := hkept
      simp only [List.forall_mem_append, List.forall_mem_cons]
      exact ⟨⟨h1, h2, h3, h4, by simp⟩, hflags.mp h5⟩
    · intro hl
      obtain ⟨hhost, hkept⟩ := hl
      simp only [List.forall_mem_append, List.forall_mem_cons] at hkept
      obtain ⟨⟨h1, h2, h3, h4, -⟩, h5⟩ := hkept
      refine ⟨rfl, rfl, hhost, ?_⟩
      simp only [texts, List.forall_mem_cons]
      exact ⟨h1, h2, h3, h4, hflags.mpr h5, by simp⟩

def tlsUrl : QUrl :=
  ⟨"ldaps".toList, "ldap.example.com".toList, noPort, [], [], [], [], []⟩

theorem tlsUrl_nul : NulOnlyIfGiven fun _ => tlsUrl := by
  have hplain : ∀ f ∈ texts tlsUrl, '\x00' ∉ f := by decide
  exact fun _ _ _ => hplain

theorem lossless_iff_tls :
    let ofString : QString → QUrl := fun _ => tlsUrl
    NulOnlyIfGiven ofString ∧
      (ReadBack ofString
          (parseURL ofString ldapServerType "ldaps://ldap.example.com".toList) ↔
        Lossless ofString "ldaps://ldap.example.com".toList) :=
  ⟨tlsUrl_nul, lossless_iff _ tlsUrl_nul _⟩

/-- A server called like the prefix is read back with its port as the host, and a URL with
TLS does not have the scheme asserted. -/
theorem not_readBack_ldap_host :
    ¬ReadBack (fun _ => tlsUrl)
        (parseURL (fun _ => tlsUrl) ldapServerType "ldap:ldap:389:::".toList) ∧
      ¬ReadBack (fun _ => tlsUrl)
        (parseURL (fun _ => tlsUrl) ldapServerType "ldaps://ldap.example.com".toList) := by
  have hitems : ldapItems "ldap:ldap:389:::".toList =
      some ⟨ldap, "389".toList, [], [], [], none⟩ := by rfl
  have hnone : ldapItems "ldaps://ldap.example.com".toList = none := by rfl
  have hdecode : urlpartDecode ldap = ldap := by decide
  have hurl : NulOnlyIfGiven fun _ => tlsUrl := tlsUrl_nul
  constructor
  · intro h
    have hhost := ((readBack_iff _ _ hurl).mp h).host
    simp only [parseURL, if_true, hitems, LdapItems.toUrl] at hhost
    exact hhost hdecode
  · intro h
    have hscheme := ((readBack_iff _ _ hurl).mp h).scheme
    simp only [parseURL, if_true, hnone] at hscheme
    exact absurd hscheme (by decide)

end roundtrip

/-- The components of a configured server that the claimed format is made for. -/
structure LdapServer where
  host : QString
  port : Port
  userName : QString
  password : QString
  baseDn : QString
  flags : QString
  ascii : ∀ f ∈ [host, userName, password, baseDn, flags], ∀ c ∈ f, Utf8.Ascii c
  no_percent : ∀ f ∈ [host, userName, password, baseDn, flags], '%' ∉ f
  host_no_colon : ':' ∉ host
  host_lower : ∀ c ∈ host, ¬c.isUpper

def LdapServer.toUrl (r : LdapServer) : QUrl :=
  ⟨ldap, r.host, r.port, r.userName, r.password, [], r.baseDn, r.flags⟩

/-- All the components of the server are those of the URL. -/
def LdapServer.DecodedTo (r : LdapServer) (url : QUrl) : Prop :=
  url.host = r.host ∧ url.port = r.port ∧ url.userName = r.userName ∧
    url.password = r.password ∧ url.query = r.baseDn ∧ url.fragment = r.flags

/-- A server is decoded from its encoding exactly when its host is not called like the
optional prefix. -/
theorem LdapServer.decodedTo_iff (ofString : QString → QUrl) (r : LdapServer) :
    r.DecodedTo (parseURL ofString ldapServerType (splitURL ldapServerType r.toUrl)) ↔
      r.host ≠ ldap := by
  constructor
  · intro h hhost
    have hport := parseURL_splitURL_ldap ofString r.toUrl hhost
    rw [h.1, hhost] at hport
    exact portToString_ne_ldap r.port hport.symm
  · intro hhost
    obtain ⟨h1, h2, h3, h4, h5⟩ := (urlpartDecode_texts r.toUrl).mp r.ascii
    rw [parseURL_splitURL ofString r.toUrl hhost]
    exact ⟨h1, rfl, h2, h3, h4, h5⟩

def ldapNamedLdap : LdapServer :=
  ⟨ldap, ⟨389, by decide⟩, [], [], [], [], by decide, by decide, by decide, by decide⟩

/-- A host called like the prefix is taken for it, and the port for the host. -/
theorem host_taken_for_prefix :
    ¬ldapNamedLdap.DecodedTo (parseURL (fun _ => tlsUrl) ldapServerType
      (splitURL ldapServerType ldapNamedLdap.toUrl)) := by
  intro h
  have hhost := h.1
  rw [parseURL_splitURL_ldap _ ldapNamedLdap.toUrl rfl] at hhost
  exact portToString_ne_ldap _ hhost

end QGpgME.LdapUrl
