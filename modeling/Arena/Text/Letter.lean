/-
Unicode letters, numerals and printable characters as tables of runs of code points. Characters
below 128 are decided without a table.
-/

namespace Arena.Text

/-- Membership in a class given by the lengths of the runs of code points outside and inside of it,
in turn; the first run lies outside and starts at code point 128. -/
def inRuns (runs : List Nat) (n : Nat) : Bool :=
  walk false runs (n - 128)
where
  walk (inside : Bool) : List Nat → Nat → Bool
    | [], _ => false
    | run :: rest, n => if n < run then inside else walk (!inside) rest (n - run)

/-- Lengths of runs, each a letter of the alphabet (small letters, then capitals) or a numeral. -/
def runLengths (s : String) : List Nat :=
  walk none s.toList
where
  walk (number : Option Nat) : List Char → List Nat
    | [] => number.toList
    | c :: cs =>
      if c.isDigit then walk (some (number.getD 0 * 10 + (c.toNat - 48))) cs
      else
        let length := if c.isLower then [c.toNat - 96] else if c.isUpper then [c.toNat - 38] else []
        number.toList ++ length ++ walk none cs

def letterRuns : List Nat := runLengths
  ("PajadaewaEa458dlnegaaa129eabbdaafaacaaata83a139h166aLbafO71AddSQIba99aaobgbjcbapaaDC89kaxGibd" ++
  "aevdaiacawygkexafqP58 54caragjopdhbbbvagaacdcapambacnbjahfdbbvagabababEdaascpiacavagabaecarao" ++
  "bwakhbbbvagabaecaDbacoaqaafccadcbaaabcbccclvaZhacawapcazcbabbDadhacawajaecaEbabobqiacaObapaec" ++
  "hcxfercxaiaabg58Vablg58baaaeaxaaajabiabeaaudFa63haJAe115QtapfddcacbgcdmlaqLaaeabQa333adbgaaad" ++
  "bOadbGadbgaaadboa57adb67Kpp86bfc620bqaze75fhgrmsnrnmacoZIada67 89gebHaae70jEWDbekRdz54wi53 82" ++
  "a93Uqh54DmbjRzJOcjJbigQbcOdafabcae192 64 278bfbLbfbhaaaaaaaEb53agaaccagcdbfdmecag116amapm101a" ++
  "dabjaacefaaaaaadakbdeedaZb2683 229fdcblLaaeab56gapwigagagagagagagag80a469bPeebd86fca90adeQa94" ++
  "qFVp512 6592 64 22157 67Tb269cpjbtUpEb70Wib103b64ebaaaexpacadawCZnX62fcaabkBjwyCgUBapeajjeaOw" ++
  "cahtwcacXaacbbebaaaxcbkgclfbfbfigagaQanf115C11172lwdW8452 366b106Lgleeaajamaeaaababa108G363r6" ++
  "4b54Nl116ea135Jzfzk89cfbfbfbcIlazasabaobnH123 389CcWUFmtahfLjDbJdhV158rJdJdNhZlkaoagabakaoaga" ++
  "b67 311ivjhxfaPai69fbaaRabcabwjwiE65sabjvjz70 56fb64aodacaCPCcCIhaBA54jvjsmr110 73 55YmYmJ348" ++
  "Pfb78CjahvPrTuAwl53 57bbamSFyzJCabahIcalVnduaaaIray84gaaadaoajgULhbbbvagabaecarale158 53rdtcD" ++
  "Vtbaa184UOdJVta59Qma71AKg185R116 64Ehbabhabaxoaaa94hbMpaaaBajNgauakTsar73 263iaKqaWD112gabaLu" ++
  "ayfabaFna327s189a79 922 230 196 2636 97o1071 4049 583 8633 569gEq79qDrVpdEues688 64 128 75ea6" ++
  "6m64baaB6136h1238Pi8935dagaba291Scqdh396 2308 107emcigj5990 85a71abbabbbdalaaaga65adbhagaBada" ++
  "eaacga340byayaEayaEayaEayaEayah1844E481Sjgpa321DrR1268gadabaoa197 59 68ga1204daAabaabaajadaaa" ++
  "afadaaaaaacabaabaaaaaaaaaabaabdagadadaaajaqecaeaq4420 42720F4153g222b5762n7473 3103 542 1506 " ++
  "4939")

def numeralRuns : List Nat := runLengths
  ("Xbeabc1441j134j198j412j118jdf108j118j118jbf110m115jhg103j104ggs109j96j118j70t268j70j719t881c2" ++
  "39jfjvj300j128k165jfj182j86j134jfj1046acffj198Ybe726 60 78v630D1385a777ayinc343d138jDhaoFjMo2" ++
  "9536j188j320f154jLj198jvj86j406j21270j493Sl57qb341AJdCaha134e202j942hygMi75evf160bbpbT64iZbDc" ++
  "75e104hxhOg330fVj294E158jPd112g134D128j60j144jgt251j342j118j374j102j102l420s93j758C227j70j534" ++
  "u1067 111 17905j86j134jag798w25673t108y1109X2368j422j1485i128j791 59acad76Sao962m2787j")

def printableRuns : List Nat := runLengths
  ("Gla714bfdgaaata397aLbXbca55hAdfqva192aVb59b101n59bWboaBbaakeEi74a161ahbbbvagaacdbibbbdhadbaeb" ++
  "ybcafdbbvagabababbaaedbbccagdaagqjcaiacavagabaebjacacbaodblggacahbbbvagabaebibbbcgcdbaebrjbaf" ++
  "ccadcbaaabcbcccldeccadbafanuemacawapbiacadgbacbabdbjgvacawajaebiacadgbfbadbjabmmacaYacafdpbza" ++
  "carcxaiaabgcadfaaahfjbcl58dCKbaaaeaxaaawbeaaafbjbdF72aJdMaJaoamK198aaeab377adbgaaadbOadbGadbg" ++
  "aaadboa57adb67bFczf86bfb640aBc89gvixitlmacabl94bjfjfnakf89gQe70jEaldldacPbekRdzfkc62b65aCbkfj" ++
  "fnbEW77cUa116h60coc60gQbkhQe534bfbLbfbhaaaaaaaEb53aoanbfasbcaiqxhUqbbAamcGoGo140d663yku1812bF" ++
  "a349eSaaeab56gbnxigagagagagagagaga126Hza89l214zle63a86b103eQa94a84lUa29293c55i348t184h203ebaa" ++
  "aex59cjf56h70hlf116kDc78akdGa55inbjb103xBjfbfbfigaga60d126bjf11172lwdW8452 366b106Lgleezaeaaa" ++
  "baba125p445b54gaFPfYasaddea135d190cfbfbfbccgagmbblazasabaobnH123ecdSc88amcaUT130CcWoBdJiDeQeD" ++
  "aKdnP158bjfJdJdNhZklaoagabakaoagab67 311ivjhxfaPai69fbaaRabcabwa72hiVsabeGcAea64 56dtbXabehac" ++
  "aCbcdjgig64FMdli54cCbAezgdlg80 73 55YmYgThj294EaPacbb78NhPvzLBtwi78dJi62aemygjf53arhMi96atkra" ++
  "R65gaaadaoakf59ejfdahbbbvagabaeajbbbcbafaegbgce139 92aeD72hj166 54bLH69kjfms58fj54Abodw185 6" ++
  "0 100 83lhbabhabaDabblij70hbTbkA72h83m73 263iaSanjCcFbvan73gabaRcaabaihjffabaKabafgj310y183ao" ++
  "Xm923 102 111aek196 2636 99m1071 4049 583 8633 569gEajd81ajfDbfj70jjagaues688 91 101 75d57gq6" ++
  "4ekbn6136h1238Pi8935dagaba291Scqdh396 2308 107emcigjbd4704Tbwi116 60 246jMb74h112u70 154tl87i" ++
  "y135 85a71abbabbbdalaaaga65adbhagaBadaeaacga340b292b702oeao1104E225gaqbgabae213Scnbjdb320Eq58" ++
  "ea1248gadabaoa197bpO76djdb785 68 76 61 194daAabaabaajadaaaafadaaaaaacabaabaaaaaaaaaabaabdagad" ++
  "adaaajaqecaeaqZb270Rd100loboaoaKj174 56CmRdigbnf154 984epcmc116l89gldaold56hjfNhDbb78 340lnbe" ++
  "cecgiCckefjjfhhgi147a55Kj1030 42720F4153g222b5762n7473 3103 542 1506 4939 716213 240")

def isLetter (c : Char) : Bool :=
  if c.toNat < 128 then c.isAlpha else inRuns letterRuns c.toNat

def isLetterOrNumeral (c : Char) : Bool :=
  if c.toNat < 128 then c.isAlphanum else isLetter c || inRuns numeralRuns c.toNat

/-- Whether a character may stand inside a word: letters, numeric characters and the underscore. -/
def isWordChar (c : Char) : Bool := c == '_' || isLetterOrNumeral c

def isPrintable (c : Char) : Bool :=
  if c.toNat < 128 then 32 ≤ c.toNat && c.toNat < 127 else inRuns printableRuns c.toNat

end Arena.Text
