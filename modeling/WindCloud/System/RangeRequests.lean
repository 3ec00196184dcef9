import WindCloud.Client.Completion
import WindCloud.Lib.Tokens
import WindCloud.Server.DownloadRuns

/-!
# The text of a range request

The client puts the five fields of a request for a range ticket into one text,
with a separator and no escaping. The server reads back what was put in unless
the file's name holds the separator, which no command forbids.
-/

set_option autoImplicit false

namespace WindCloud
open CString

/-- A name in the current directory under which a file is made and asked for. -/
structure Fetchable (name : Text) : Prop where
  valid : isValidVfsName name = true
  path : checkArgPath name = true
  single : '/' ∉ name
  word : ∀ x ∈ name, isSpace x = false

/-- Address and port of a source, as they stand in a plan. -/
structure Offered (ip port : Text) : Prop where
  ip : ip ≠ [] ∧ ip.length < 64 ∧ '|' ∉ ip
  port : port ≠ [] ∧ port.length < 16 ∧ '|' ∉ port

/-- What the server reads in the request the client builds. -/
def exchangeRange (name : Text) (first last : ℤ) (ip port : Text) : Option RangeRequest := do
  let request ← Client.buildGetsRangeTicketRequest cmdDataLen name first last ip port
  parseGetsRangeTicketRequest request fileNameLen 64 16

theorem decimal_no_separator (n : ℤ) : '|' ∉ decimal n := by
  intro h
  have hd : '|' ∉ Nat.toDigits 10 n.natAbs := fun hm => by
    have := digits_isDigit _ _ hm
    exact absurd this (by decide)
  unfold decimal at h
  split at h
  · rcases List.mem_cons.mp h with he | h
    · exact absurd he (by decide)
    · exact hd h
  · exact hd h

theorem decimal_ne_nil (n : ℤ) : decimal n ≠ [] := by
  unfold decimal
  split
  · exact List.cons_ne_nil _ _
  · exact Nat.toDigits_ne_nil

theorem atollOff_decimal {n : ℤ} (h0 : 0 ≤ n) (h : n ≤ offMax) : atollOff (decimal n) = n := by
  simp only [atollOff,atoll_decimal,offMin,offMax] at *
  omega

section Request

variable {name ip port : Text} {first last : ℤ}

theorem build_request (hname : name.length ≤ maxVfsNameLen) (hs : Offered ip port) (h0 : 0 ≤ first)
    (h1 : first ≤ last) (h2 : last ≤ offMax) :
    Client.buildGetsRangeTicketRequest cmdDataLen name first last ip port =
        some (name ++ '|'::(decimal first ++ '|'::(decimal last ++ '|'::(ip ++ '|'::port)))) ∧
      (name ++ '|'::(decimal first ++ '|'::(decimal last ++ '|'::(ip ++ '|'::port)))).length <
        cmdDataLen := by
  have hfirst := Client.decimal_short (n := first) h0 (by unfold offMax at h2; omega)
  have hlast := Client.decimal_short (n := last) (by omega) (by unfold offMax at h2; omega)
  have hip := hs.ip.2.1
  have hport := hs.port.2.1
  have hlen : (name ++ '|'::(decimal first ++ '|'::(decimal last ++ '|'::(ip ++ '|'::port)))).length <
      cmdDataLen := by
    simp only [cmdDataLen,maxVfsNameLen,List.length_append,List.length_cons] at *
    omega
  constructor
  · apply bounded_eq_some.mpr
    constructor
    · simp only [List.append_assoc,List.cons_append]
    · simpa only [List.append_assoc,List.cons_append] using hlen
  · exact hlen

theorem parse_request (hne : name ≠ []) (hname : '|' ∉ name) (hlen : name.length < fileNameLen)
    (hs : Offered ip port) (h0 : 0 ≤ first) (h1 : first ≤ last) (h2 : last ≤ offMax)
    (hfit : (name ++ '|'::(decimal first ++ '|'::(decimal last ++ '|'::(ip ++ '|'::port)))).length <
      cmdDataLen) :
    parseGetsRangeTicketRequest
        (name ++ '|'::(decimal first ++ '|'::(decimal last ++ '|'::(ip ++ '|'::port))))
        fileNameLen 64 16 = some ⟨name,first,last,ip,port⟩ := by
  have hclean : ∀ {t : Text}, '|' ∉ t → ∀ x ∈ t, x ∉ ['|'] := fun ht x hx hm =>
    ht (List.mem_singleton.mp hm ▸ hx)
  have hbuf := bounded_eq_some.mpr ⟨rfl,hfit⟩
  have tname := @strtok_field ['|'] name
    (decimal first ++ '|'::(decimal last ++ '|'::(ip ++ '|'::port))) '|'
    hne (hclean hname) (List.mem_singleton_self '|')
  have tfirst := @strtok_field ['|'] (decimal first) (decimal last ++ '|'::(ip ++ '|'::port)) '|'
    (decimal_ne_nil first) (hclean (decimal_no_separator first)) (List.mem_singleton_self '|')
  have tlast := @strtok_field ['|'] (decimal last) (ip ++ '|'::port) '|'
    (decimal_ne_nil last) (hclean (decimal_no_separator last)) (List.mem_singleton_self '|')
  have tip := @strtok_field ['|'] ip port '|' hs.ip.1 (hclean hs.ip.2.2) (List.mem_singleton_self '|')
  have tport := strtok_last hs.port.1 (hclean hs.port.2.2)
  have bname := bounded_eq_some.mpr ⟨rfl,hlen⟩
  have bip := bounded_eq_some.mpr ⟨rfl,hs.ip.2.1⟩
  have bport := bounded_eq_some.mpr ⟨rfl,hs.port.2.1⟩
  have hrange : ¬ (first < 0 ∨ last < first) := by omega
  simp only [parseGetsRangeTicketRequest,Option.bind_eq_bind,hbuf,tname,bname,tfirst,tlast,tip,bip,
    tport,bport,Option.bind_some,atollOff_decimal h0 (h1.trans h2),atollOff_decimal (h0.trans h1) h2,
    if_neg hrange]

/-- No name with the separator comes out of the parser. -/
theorem parsed_name {request : Text} {m n k : ℕ} {r : RangeRequest}
    (h : parseGetsRangeTicketRequest request m n k = some r) : '|' ∉ r.fileName := by
  simp only [parseGetsRangeTicketRequest,Option.bind_eq_bind,Option.bind_eq_some_iff] at h
  obtain ⟨buf,_,⟨token,rest⟩,htoken,fileName,hname,⟨a,rest⟩,_,⟨b,rest⟩,_,⟨ip,rest⟩,_,sip,_,
    ⟨port,rest⟩,_,sport,_,h⟩ := h
  split at h
  · cases h
  · cases h
    obtain ⟨rfl,-⟩ := bounded_eq_some.mp hname
    intro hm
    exact (strtok_token htoken).2 _ hm (List.mem_singleton_self _)

end Request

/-- The request for a range says to the server what the client meant exactly
when the name of the file does not hold the separator. -/
theorem range_request_read_iff (name : Text) (first last : ℤ) (ip port : Text)
    (hname : Fetchable name) (h0 : 0 ≤ first) (h1 : first ≤ last) (h2 : last < 9223372036854775808)
    (hs : Offered ip port) :
    exchangeRange name first last ip port = some ⟨name,first,last,ip,port⟩ ↔ '|' ∉ name := by
  have hv : name.length ≠ 0 ∧ name.length ≤ maxVfsNameLen := by
    simpa only [isValidVfsName,decide_eq_true_eq] using hname.valid
  have hmax : last ≤ offMax := by unfold offMax; omega
  obtain ⟨hbuild,hfit⟩ := build_request hv.2 hs h0 h1 hmax
  have hexchange : exchangeRange name first last ip port =
      parseGetsRangeTicketRequest
        (name ++ '|'::(decimal first ++ '|'::(decimal last ++ '|'::(ip ++ '|'::port))))
        fileNameLen 64 16 := by
    rw [exchangeRange,hbuild]
    rfl
  constructor
  · intro h
    rw [hexchange] at h
    exact parsed_name h
  · intro h
    have hlen : name.length < fileNameLen := by
      have := hv.2
      simp only [maxVfsNameLen,fileNameLen] at *
      omega
    rw [hexchange]
    exact parse_request (by rintro rfl; exact hv.1 rfl) h hlen hs h0 h1 hmax hfit

theorem photo_range_request_read :
    exchangeRange "photo.jpg".toList 4096 8191 "10.0.0.2".toList "9090".toList =
      some ⟨"photo.jpg".toList,4096,8191,"10.0.0.2".toList,"9090".toList⟩ :=
  (range_request_read_iff "photo.jpg".toList 4096 8191 "10.0.0.2".toList "9090".toList
    ⟨by decide,by decide,by decide,by simp [isSpace]⟩ (by decide)
    (by decide) (by decide) ⟨by decide,by decide⟩).mpr (by decide)

/-- A file may be named with a bar, and what is asked for is then another file. -/
theorem barred_range_request_misread :
    ¬ ∀ (name : Text) (first last : ℤ) (ip port : Text), Fetchable name → 0 ≤ first →
      first ≤ last → last < 9223372036854775808 → Offered ip port →
      exchangeRange name first last ip port = some ⟨name,first,last,ip,port⟩ := by
  intro h
  have hread := h "a|b".toList 0 9 "10.0.0.2".toList "9090".toList
    ⟨by decide,by decide,by decide,by simp [isSpace]⟩ (by decide)
    (by decide) (by decide) ⟨by decide,by decide⟩
  exact absurd hread (by decide +kernel)

end WindCloud
