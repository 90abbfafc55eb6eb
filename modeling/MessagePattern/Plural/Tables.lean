import MessagePattern.Plural.Rule

/-! Plural rules in the manner of the CLDR, for whole numbers.

A row lists the languages that share rules. Languages with an empty row put every
number into `other`, and so do those in no row, which have no rules. `pt-PT` stands for
European Portuguese. -/
namespace MessagePattern.Plural

open Operand

def cardinalTable : List (List String × Rules) := [
  (["und", "gv", "id", "ja", "ko", "kw", "mo", "ms", "my", "naq", "th", "zh"], []),
  (["af", "az", "bg", "da", "de", "el", "en", "et", "eu", "fi", "hu", "ka", "kk", "mr", "ne",
      "nl", "no", "or", "sc", "sq", "sv", "sw", "ta", "te", "tr"],
    [(.one, [[whole.is 1]])]),
  (["am", "bn", "fa", "gu", "hi", "hy", "kn", "pa", "si", "vi", "zu"],
    [(.one, [[whole.among [0, 1]]])]),
  (["ar"],
    [(.zero, [[whole.is 0]]),
      (.one, [[whole.is 1]]),
      (.two, [[whole.is 2]]),
      (.few, [[lastTwo.within 3 10]]),
      (.many, [[lastTwo.within 11 99]])]),
  (["be", "ru", "uk"],
    [(.one, [[lastDigit.is 1, lastTwo.isNot 11]]),
      (.few, [[lastDigit.within 2 4, lastTwo.outside 12 14]]),
      (.many, [[lastDigit.is 0], [lastDigit.within 5 9], [lastTwo.within 11 14]])]),
  (["br"],
    [(.one, [[lastDigit.is 1, lastTwo.notAmong [11, 71, 91]]]),
      (.two, [[lastDigit.is 2, lastTwo.notAmong [12, 72, 92]]]),
      (.few, [[lastDigit.among [3, 4, 9], lastTwo.outside 10 19, lastTwo.outside 70 79,
        lastTwo.outside 90 99]]),
      (.many, [[whole.isNot 0, lastSix.is 0]])]),
  (["bs", "hr", "sr"],
    [(.one, [[lastDigit.is 1, lastTwo.isNot 11]]),
      (.few, [[lastDigit.within 2 4, lastTwo.outside 12 14]])]),
  (["ca", "es", "it", "pt-PT"],
    [(.one, [[whole.is 1]]), (.many, [[whole.isNot 0, lastSix.is 0]])]),
  (["cs", "sk"], [(.one, [[whole.is 1]]), (.few, [[whole.within 2 4]])]),
  (["cy"],
    [(.zero, [[whole.is 0]]),
      (.one, [[whole.is 1]]),
      (.two, [[whole.is 2]]),
      (.few, [[whole.is 3]]),
      (.many, [[whole.is 6]])]),
  (["fil"], [(.one, [[whole.within 1 3], [lastDigit.notAmong [4, 6, 9]]])]),
  (["fr", "pt"],
    [(.one, [[whole.among [0, 1]]]), (.many, [[whole.isNot 0, lastSix.is 0]])]),
  (["ga"],
    [(.one, [[whole.is 1]]),
      (.two, [[whole.is 2]]),
      (.few, [[whole.within 3 6]]),
      (.many, [[whole.within 7 10]])]),
  (["gd"],
    [(.one, [[whole.among [1, 11]]]),
      (.two, [[whole.among [2, 12]]]),
      (.few, [[whole.within 3 10], [whole.within 13 19]])]),
  (["he"], [(.one, [[whole.is 1]]), (.two, [[whole.is 2]])]),
  (["is", "mk"], [(.one, [[lastDigit.is 1, lastTwo.isNot 11]])]),
  (["lt"],
    [(.one, [[lastDigit.is 1, lastTwo.outside 11 19]]),
      (.few, [[lastDigit.within 2 9, lastTwo.outside 11 19]])]),
  (["lv"],
    [(.zero, [[lastDigit.is 0], [lastTwo.within 11 19]]),
      (.one, [[lastDigit.is 1, lastTwo.isNot 11]])]),
  (["mt"],
    [(.one, [[whole.is 1]]),
      (.two, [[whole.is 2]]),
      (.few, [[whole.is 0], [lastTwo.within 3 10]]),
      (.many, [[lastTwo.within 11 19]])]),
  (["pl"],
    [(.one, [[whole.is 1]]),
      (.few, [[lastDigit.within 2 4, lastTwo.outside 12 14]]),
      (.many, [[lastDigit.among [0, 1]], [lastDigit.within 5 9], [lastTwo.within 12 14]])]),
  (["ro"],
    [(.one, [[whole.is 1]]), (.few, [[whole.is 0], [whole.isNot 1, lastTwo.within 1 19]])]),
  (["sl"],
    [(.one, [[lastTwo.is 1]]), (.two, [[lastTwo.is 2]]), (.few, [[lastTwo.among [3, 4]]])])]

def ordinalTable : List (List String × Rules) := [
  (["und", "am", "ar", "br", "bs", "cs", "da", "de", "el", "et", "eu", "fa", "fi", "gv", "he",
      "hr", "id", "is", "ja", "kn", "ko", "kw", "lt", "lv", "mo", "mt", "my", "naq", "nl", "no",
      "pa", "pl", "pt", "pt-PT", "ru", "si", "sk", "sl", "sr", "sw", "ta", "te", "th", "tr",
      "zh", "zu"], []),
  (["af"], [(.few, [[lastTwo.within 2 19]])]),
  (["az"],
    [(.one, [[lastDigit.among [1, 2, 5, 7, 8]], [lastTwo.among [20, 50, 70, 80]]]),
      (.few, [[lastDigit.among [3, 4]],
        [lastThree.among [100, 200, 300, 400, 500, 600, 700, 800, 900]]]),
      (.many, [[whole.is 0], [lastDigit.is 6], [lastTwo.among [40, 60, 90]]])]),
  (["be"], [(.few, [[lastDigit.among [2, 3], lastTwo.notAmong [12, 13]]])]),
  (["bg"],
    [(.one, [[lastDigit.is 1, lastTwo.isNot 11]]),
      (.two, [[lastDigit.is 2, lastTwo.isNot 12]]),
      (.few, [[lastDigit.among [3, 4], lastTwo.notAmong [13, 14]]])]),
  (["bn"],
    [(.one, [[whole.among [1, 5, 7, 8, 9, 10]]]),
      (.two, [[whole.among [2, 3]]]),
      (.few, [[whole.is 4]]),
      (.many, [[whole.is 6]])]),
  (["ca"],
    [(.one, [[whole.among [1, 3]]]), (.two, [[whole.is 2]]), (.few, [[whole.is 4]])]),
  (["cy"],
    [(.zero, [[whole.among [0, 7, 8, 9]]]),
      (.one, [[whole.is 1]]),
      (.two, [[whole.is 2]]),
      (.few, [[whole.among [3, 4]]]),
      (.many, [[whole.among [5, 6]]])]),
  (["en"],
    [(.one, [[lastDigit.is 1, lastTwo.isNot 11]]),
      (.two, [[lastDigit.is 2, lastTwo.isNot 12]]),
      (.few, [[lastDigit.is 3, lastTwo.isNot 13]])]),
  (["es"], [(.one, [[lastDigit.among [1, 3], lastTwo.isNot 11]])]),
  (["fil", "fr", "ga", "hy", "ms", "ro", "vi"], [(.one, [[whole.is 1]])]),
  (["gd"],
    [(.one, [[whole.among [1, 11]]]),
      (.two, [[whole.among [2, 12]]]),
      (.few, [[whole.among [3, 13]]])]),
  (["gu", "hi"],
    [(.one, [[whole.is 1]]),
      (.two, [[whole.among [2, 3]]]),
      (.few, [[whole.is 4]]),
      (.many, [[whole.is 6]])]),
  (["hu"], [(.one, [[whole.among [1, 5]]])]),
  (["it", "sc"], [(.many, [[whole.among [8, 11, 80, 800]]])]),
  (["ka"],
    [(.one, [[whole.is 1]]),
      (.many, [[whole.is 0], [lastTwo.within 2 20], [lastTwo.among [40, 60, 80]]])]),
  (["kk"], [(.many, [[lastDigit.among [6, 9]], [lastDigit.is 0, whole.isNot 0]])]),
  (["mk"],
    [(.one, [[lastDigit.is 1, lastTwo.isNot 11]]),
      (.two, [[lastDigit.is 2, lastTwo.isNot 12]]),
      (.many, [[lastDigit.among [7, 8], lastTwo.notAmong [17, 18]]])]),
  (["mr"],
    [(.one, [[whole.is 1]]), (.two, [[whole.among [2, 3]]]), (.few, [[whole.is 4]])]),
  (["ne"], [(.one, [[whole.within 1 4]])]),
  (["or"],
    [(.one, [[whole.among [1, 5, 7, 8, 9]]]),
      (.two, [[whole.among [2, 3]]]),
      (.few, [[whole.is 4]]),
      (.many, [[whole.is 6]])]),
  (["sq"], [(.one, [[whole.is 1]]), (.many, [[lastDigit.is 4, lastTwo.isNot 14]])]),
  (["sv"], [(.one, [[lastDigit.among [1, 2], lastTwo.notAmong [11, 12]]])]),
  (["uk"], [(.few, [[lastDigit.is 3, lastTwo.isNot 13]])])]

end MessagePattern.Plural
